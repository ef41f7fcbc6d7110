import Libgetar.Archive
import Libgetar.Lib.Numeral

/-!
# Tar headers

The 512-byte header block: the fields of `TarHeader`, the header that `writePtr` fills in for a path
and a length (`TarHeader.ofEntry`), and the name and size that the constructor decodes from a block
(`headerName`, `headerSize`).

A field is a `char` array, and decoding reads it as a C string, so a decoded field ends at the first
NUL in or behind it. `cStr_of_copy`, `size_ofEntry` and `magic_ofEntry` say what a header that
`writePtr` has filled in holds in the fields that are decoded: the path is cut into prefix and name
by `splitPath`, and the length is there as long as it has at most eleven octal digits.
-/

namespace Libgetar

open Lib

/-- `char[n]`. -/
structure CharArray (n : ℕ) where
  bytes : Bytes
  length_eq : bytes.length = n

namespace CharArray

/-- `memset` to zero. -/
def zero (n : ℕ) : CharArray n := ⟨List.replicate n 0, List.length_replicate⟩

/-- The characters of `s` are stored at the front of the array. -/
def store {n : ℕ} (a : CharArray n) (s : Bytes) : CharArray n :=
  ⟨(s ++ a.bytes.drop s.length).take n, by
    rw [List.length_take, List.length_append, List.length_drop, a.length_eq]
    omega⟩

/-- `s.copy(a, count)`. -/
def copy {n : ℕ} (a : CharArray n) (s : Bytes) (count : ℕ) : CharArray n := a.store (s.take count)

/-- `stream.get(a, count)`: at most `count - 1` characters, and a NUL behind them. -/
def get {n : ℕ} (a : CharArray n) (stream : Bytes) (count : ℕ) : CharArray n :=
  a.store (stream.take (count - 1) ++ [0])

/-- A text that fits is followed by what the array held there. -/
theorem bytes_store {n : ℕ} {a : CharArray n} {s : Bytes} (hs : s.length ≤ n) :
    (a.store s).bytes = s ++ a.bytes.drop s.length := by
  refine List.take_of_length_le ?_
  rw [List.length_append, List.length_drop, a.length_eq]
  omega

/-- A text stored in an array of zeros is followed by zeros. -/
theorem bytes_store_zero {n : ℕ} {s : Bytes} (hs : s.length ≤ n) :
    ((zero n).store s).bytes = s ++ List.replicate (n - s.length) 0 := by
  rw [bytes_store hs]
  simp only [zero, List.drop_replicate]

end CharArray

/-- The record header. -/
structure TarHeader where
  name : CharArray 100 := CharArray.zero 100
  mode : CharArray 8 := CharArray.zero 8
  uid : CharArray 8 := CharArray.zero 8
  gid : CharArray 8 := CharArray.zero 8
  size : CharArray 12 := CharArray.zero 12
  mtime : CharArray 12 := CharArray.zero 12
  chksum : CharArray 8 := CharArray.zero 8
  typeflag : CharArray 1 := CharArray.zero 1
  linkname : CharArray 100 := CharArray.zero 100
  magic : CharArray 6 := CharArray.zero 6
  version : CharArray 2 := CharArray.zero 2
  uname : CharArray 32 := CharArray.zero 32
  gname : CharArray 32 := CharArray.zero 32
  devmajor : CharArray 8 := CharArray.zero 8
  devminor : CharArray 8 := CharArray.zero 8
  pathPrefix : CharArray 155 := CharArray.zero 155
  padding : CharArray 12 := CharArray.zero 12

/-- `sizeof(TarHeader)`. -/
def headerLength : ℕ := 512

/-- The offsets of the fields that are decoded. -/
def nameOffset : ℕ := 0
def sizeOffset : ℕ := 124
def magicOffset : ℕ := 257
def prefixOffset : ℕ := 345

/-- The first number that does not fit a `size_t`. -/
def sizeBound : ℕ := 2 ^ 64

/-- The first length that does not fit the eleven octal digits of the size field. -/
def sizeFieldBound : ℕ := 8 ^ 11

/-- What a call takes from its surroundings. -/
structure TarEnv where
  /-- `time(NULL)`. -/
  now : ℕ
  /-- Plain `char` is signed. -/
  signedChar : Bool := true
  /-- The characters that `new char[n]` holds before anything is stored there. -/
  fresh : ℕ → UInt8 := fun _ => 0

namespace TarHeader

/-- The header as it lies in memory and in the file. -/
def toBytes (h : TarHeader) : Bytes :=
  h.name.bytes ++ (h.mode.bytes ++ (h.uid.bytes ++ (h.gid.bytes ++ (h.size.bytes ++
  (h.mtime.bytes ++ (h.chksum.bytes ++ (h.typeflag.bytes ++ (h.linkname.bytes ++ (h.magic.bytes ++
  (h.version.bytes ++ (h.uname.bytes ++ (h.gname.bytes ++ (h.devmajor.bytes ++ (h.devminor.bytes ++
  (h.pathPrefix.bytes ++ h.padding.bytes)))))))))))))))

/-- The value of a `char`. -/
def charValue (signedChar : Bool) (c : UInt8) : ℤ :=
  if signedChar && 128 ≤ c.toNat then (c.toNat : ℤ) - 256 else c.toNat

/-- The sum of the characters, in an `unsigned int`. -/
def checksum (signedChar : Bool) (s : Bytes) : ℕ :=
  ((s.map (charValue signedChar)).sum % 2 ^ 32).toNat

/-- The header without its checksum: eight spaces stand in the checksum's place. -/
def unsummed (pathPrefix name : Bytes) (byteLength : ℕ) (env : TarEnv) : TarHeader :=
  let zero : TarHeader := {}
  { name := zero.name.copy name 99
    pathPrefix := zero.pathPrefix.copy pathPrefix 154
    magic := zero.magic.copy (lit "ustar") 6
    mode := zero.mode.get (fill 48 7 (numeral 8 0o644)) 8
    size := zero.size.get (fill 48 11 (numeral 8 byteLength)) 12
    mtime := zero.mtime.get (fill 48 11 (numeral 8 env.now)) 12
    typeflag := zero.typeflag.store [48]
    version := zero.version.store [48, 48]
    chksum := zero.chksum.store (List.replicate 8 32) }

/-- The header that `writePtr` stores in front of `byteLength` bytes. -/
def ofEntry (pathPrefix name : Bytes) (byteLength : ℕ) (env : TarEnv) : TarHeader :=
  let h := unsummed pathPrefix name byteLength env
  let sum := checksum env.signedChar h.toBytes
  { h with chksum := h.chksum.get (fill 48 6 (numeral 8 sum) ++ [0, 32]) 8 }

end TarHeader

/-- How `writePtr` cuts a path into prefix and name. -/
def splitPath (path : Bytes) : Bytes × Bytes :=
  if 99 < path.length then
    (substr path 0 (path.length - 100), substr path (path.length - 100) 99)
  else ([], path)

/-- The C string at an offset of a header block. -/
def cString (header : Bytes) (off : ℕ) : Bytes := cStr (header.drop off)

/-- The name that the constructor decodes from a block. -/
def headerName (header : Bytes) : Bytes := cString header prefixOffset ++ cString header nameOffset

/-- The size that the constructor decodes from a block. -/
def headerSize (header : Bytes) : ℕ := extract 8 sizeBound (cString header sizeOffset)

/-! ## C strings -/

/-- A C string ends inside a field that holds a NUL. -/
theorem cString_of_mem {header : Bytes} {off n : ℕ} (h : 0 ∈ substr header off n) :
    cString header off = cStr (substr header off n) := by
  have hcut : header.drop off = substr header off n ++ (header.drop off).drop n :=
    (List.take_append_drop n _).symm
  rw [cString, hcut]
  exact cStr_append_of_mem h _

/-- The text of a field of digits and a NUL. -/
theorem cStr_digits {b : ℕ} {digits : Bytes} (h : ∀ c ∈ digits, isDigit b c = true) :
    cStr (digits ++ [0]) = digits := by
  have hnot : (0 : UInt8) ∉ digits := by
    intro hmem
    have hzero := h 0 hmem
    simp [isDigit] at hzero
  exact (cStr_append_replicate digits 1).trans (cStr_eq_self hnot)

namespace CharArray

/-- What stands behind an array at the front, from some offset on. -/
theorem drop_skip {k : ℕ} (a : CharArray k) (s : Bytes) {off : ℕ} (h : k ≤ off) :
    (a.bytes ++ s).drop off = s.drop (off - k) := by
  rw [List.drop_append, a.length_eq, List.drop_eq_nil_of_le (by rw [a.length_eq]; exact h),
    List.nil_append]

/-- A slice behind an array at the front. -/
theorem substr_skip {k : ℕ} (a : CharArray k) (s : Bytes) {off n : ℕ} (h : k ≤ off) :
    substr (a.bytes ++ s) off n = substr s (off - k) n := by
  rw [substr, substr, a.drop_skip s h]

/-- The slice that is the array at the front. -/
theorem substr_take {n : ℕ} (a : CharArray n) (s : Bytes) : substr (a.bytes ++ s) 0 n = a.bytes := by
  rw [substr, List.drop_zero, List.take_left' a.length_eq]

end CharArray

namespace TarHeader

/-! ## The layout of the header -/

theorem length_toBytes (h : TarHeader) : h.toBytes.length = headerLength := by
  simp only [toBytes, List.length_append, CharArray.length_eq]
  rfl

theorem substr_name (h : TarHeader) : substr h.toBytes nameOffset 100 = h.name.bytes :=
  h.name.substr_take _

theorem substr_size (h : TarHeader) : substr h.toBytes sizeOffset 12 = h.size.bytes := by
  simp (disch := decide) only [toBytes, sizeOffset, CharArray.substr_skip, CharArray.substr_take,
    Nat.reduceSub]

theorem substr_magic (h : TarHeader) : substr h.toBytes magicOffset 6 = h.magic.bytes := by
  simp (disch := decide) only [toBytes, magicOffset, CharArray.substr_skip, CharArray.substr_take,
    Nat.reduceSub]

theorem substr_pathPrefix (h : TarHeader) : substr h.toBytes prefixOffset 155 = h.pathPrefix.bytes := by
  simp (disch := decide) only [toBytes, prefixOffset, CharArray.substr_skip,
    CharArray.substr_take, Nat.reduceSub]

theorem drop_pathPrefix (h : TarHeader) :
    h.toBytes.drop prefixOffset = h.pathPrefix.bytes ++ h.padding.bytes := by
  simp (disch := decide) only [toBytes, prefixOffset, CharArray.drop_skip, Nat.reduceSub,
    List.drop_zero]

/-! ## The fields that are decoded -/

/-- A field into which a text was copied, with room for a NUL behind it: it is NUL-terminated, and
its text is the text that was copied. -/
theorem cStr_of_copy {header s : Bytes} {off n : ℕ}
    (h : substr header off (n + 1) = ((CharArray.zero (n + 1)).copy s n).bytes) :
    0 ∈ substr header off (n + 1) ∧
      cStr (substr header off (n + 1)) = cStr (s.take n) := by
  have hfit : (s.take n).length ≤ n := List.length_take_le n s
  have hfield : substr header off (n + 1) =
      s.take n ++ List.replicate (n + 1 - (s.take n).length) 0 := by
    rw [h]
    exact CharArray.bytes_store_zero (by omega)
  rw [hfield]
  constructor
  · exact List.mem_append_right _ (List.mem_replicate.mpr ⟨by omega, rfl⟩)
  · exact cStr_append_replicate _ _

variable (pathPrefix name : Bytes) {byteLength : ℕ} (env : TarEnv)

/-- The digits in the size field: the first eleven ones of the length. -/
def sizeDigits (byteLength : ℕ) : Bytes := (fill 48 11 (numeral 8 byteLength)).take 11

theorem length_sizeDigits (byteLength : ℕ) : (sizeDigits byteLength).length = 11 := by
  rw [sizeDigits, List.length_take, fill, List.length_append, List.length_replicate]
  omega

/-- A length of at most eleven octal digits is not cut. -/
theorem sizeDigits_of_lt (hlen : byteLength < sizeFieldBound) :
    sizeDigits byteLength = fill 48 11 (numeral 8 byteLength) := by
  refine List.take_of_length_le (Nat.le_of_eq ?_)
  exact length_fill (length_numeral_le (by omega) (by omega) hlen)

/-- The size field holds the digits, up to a NUL. -/
theorem size_ofEntry : substr (ofEntry pathPrefix name byteLength env).toBytes sizeOffset 12 =
    sizeDigits byteLength ++ [0] := by
  have hlen := length_sizeDigits byteLength
  rw [substr_size]
  change ((CharArray.zero 12).store (sizeDigits byteLength ++ [0])).bytes = _
  rw [CharArray.bytes_store_zero]
  · simp [hlen]
  · simp [hlen]

/-- The magic is that of a ustar header. -/
theorem magic_ofEntry :
    substr (ofEntry pathPrefix name byteLength env).toBytes magicOffset 6 = lit "ustar" ++ [0] := by
  rw [substr_magic]
  rfl

end TarHeader

end Libgetar
