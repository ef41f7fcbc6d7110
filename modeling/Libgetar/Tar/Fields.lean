import Libgetar.Tar.Session

/-!
# The size and checksum fields

What `writePtr` puts into the size and checksum fields for any path, length, time, and platform.

A number is written with a fill and a width, and then cut to the field. The cut never fails: a
length with more than eleven octal digits is stored as its first eleven ones, which are another
number (`digitsValue_sizeDigits_lt`). So the scan decodes the length exactly if it is below `8 ^ 11`
(`headerSize_ofEntry_iff`).

The checksum adds the header's characters as plain `char`s. Where these are signed, every byte from
128 on counts 256 less (`sum_charValue`), so the field holds the checksum of the ustar format
exactly if there is no such byte, or `char` is unsigned (`hasChecksum_iff`). Only the path can
have such bytes (`mem_toBytes_unsummed`).
-/

namespace Libgetar

open Lib

namespace TarHeader

variable (pathPrefix name : Bytes) (byteLength : ℕ) (env : TarEnv)

/-! ## The size field -/

theorem isDigit_of_mem_sizeDigits {c : UInt8} (hc : c ∈ sizeDigits byteLength) :
    isDigit 8 c = true :=
  isDigit_of_mem_fill_numeral (by omega) (by omega) (List.mem_of_mem_take hc)

/-- Their value is below `8 ^ 11`. -/
theorem digitsValue_sizeDigits_lt : digitsValue 8 (sizeDigits byteLength) < sizeFieldBound := by
  have hlt := digitsValue_lt fun c hc => isDigit_of_mem_sizeDigits byteLength (c := c) hc
  rw [length_sizeDigits] at hlt
  exact hlt

/-- The scan decodes them. -/
theorem headerSize_eq : headerSize (ofEntry pathPrefix name byteLength env).toBytes =
    digitsValue 8 (sizeDigits byteLength) := by
  have hfield : substr (ofEntry pathPrefix name byteLength env).toBytes sizeOffset 12 =
      sizeDigits byteLength ++ [0] := size_ofEntry pathPrefix name env
  have hdigit := fun c => isDigit_of_mem_sizeDigits byteLength (c := c)
  have hne : sizeDigits byteLength ≠ [] := by
    rw [← List.length_pos_iff, length_sizeDigits]
    omega
  have hsmall : digitsValue 8 (sizeDigits byteLength) < sizeBound :=
    (digitsValue_sizeDigits_lt byteLength).trans (by decide)
  have hnul : (0 : UInt8) ∈ substr (ofEntry pathPrefix name byteLength env).toBytes sizeOffset 12 := by
    rw [hfield]
    exact List.mem_append_right _ (List.mem_singleton_self _)
  rw [headerSize, cString_of_mem hnul, hfield, cStr_digits hdigit]
  exact extract_of_digits hne hdigit hsmall

/-- The length is decoded exactly if it fits eleven digits. -/
theorem headerSize_ofEntry_iff :
    headerSize (ofEntry pathPrefix name byteLength env).toBytes = byteLength ↔
      byteLength < sizeFieldBound := by
  constructor
  · intro h
    rw [← h, headerSize_eq]
    exact digitsValue_sizeDigits_lt byteLength
  · intro hlen
    have hdigits : (fill 48 11 (numeral 8 byteLength)).length = 11 :=
      length_fill (length_numeral_le (by omega) (by omega) hlen)
    rw [headerSize_eq, sizeDigits, List.take_of_length_le (by omega),
      digitsValue_fill_numeral (by omega) (by omega)]

/-! ## The checksum field -/

/-- The offset of the checksum field. -/
def chksumOffset : ℕ := 148

/-- The checksum of the ustar format: the sum of the bytes, where the checksum field counts as
spaces. -/
def ustarSum (header : Bytes) : ℕ :=
  ((header.take chksumOffset ++ List.replicate 8 32 ++ header.drop (chksumOffset + 8)).map
    UInt8.toNat).sum

/-- The checksum field holds the checksum, as six octal digits and a NUL. -/
def HasChecksum (header : Bytes) : Prop :=
  ∃ digits rest : Bytes, substr header chksumOffset 8 = digits ++ 0 :: rest ∧ digits.length = 6 ∧
    (∀ c ∈ digits, isDigit 8 c = true) ∧ digitsValue 8 digits = ustarSum header

/-- The number of bytes that are negative as signed characters. -/
def highBytes (s : Bytes) : ℕ := s.countP fun c => 128 ≤ c.toNat

/-- Each byte from 128 on counts 256 less as a signed character. -/
theorem sum_charValue (signedChar : Bool) (s : Bytes) : (s.map (charValue signedChar)).sum =
    ((s.map UInt8.toNat).sum : ℕ) - 256 * ((if signedChar then highBytes s else 0 : ℕ) : ℤ) := by
  induction s with
  | nil => simp [highBytes]
  | cons c s ih =>
    have hcons : highBytes (c :: s) = highBytes s + if 128 ≤ c.toNat then 1 else 0 := by
      simp only [highBytes, List.countP_cons, decide_eq_true_eq]
    rw [List.map_cons, List.sum_cons, ih, List.map_cons, List.sum_cons, hcons]
    cases signedChar with
    | false => simp [charValue]
    | true =>
      simp only [charValue, Bool.true_and, if_true, decide_eq_true_eq]
      split
      · push_cast
        ring
      · push_cast
        ring

/-- The fields in front of the checksum. -/
def front (h : TarHeader) : Bytes :=
  h.name.bytes ++ h.mode.bytes ++ h.uid.bytes ++ h.gid.bytes ++ h.size.bytes ++ h.mtime.bytes

/-- The fields behind the checksum. -/
def back (h : TarHeader) : Bytes :=
  h.typeflag.bytes ++ h.linkname.bytes ++ h.magic.bytes ++ h.version.bytes ++ h.uname.bytes ++
    h.gname.bytes ++ h.devmajor.bytes ++ h.devminor.bytes ++ h.pathPrefix.bytes ++ h.padding.bytes

theorem toBytes_eq (h : TarHeader) : h.toBytes = h.front ++ (h.chksum.bytes ++ h.back) := by
  simp only [toBytes, front, back, List.append_assoc]

theorem length_front (h : TarHeader) : h.front.length = chksumOffset := by
  simp only [front, List.length_append, CharArray.length_eq]
  rfl

theorem substr_chksum (h : TarHeader) : substr h.toBytes chksumOffset 8 = h.chksum.bytes := by
  rw [toBytes_eq, substr, ← length_front h, List.drop_left, List.take_left' h.chksum.length_eq]

/-- The header that `writePtr` fills in differs from the unsummed one in the checksum only. -/
theorem toBytes_ofEntry : (ofEntry pathPrefix name byteLength env).toBytes =
    (unsummed pathPrefix name byteLength env).front ++
      ((ofEntry pathPrefix name byteLength env).chksum.bytes ++
        (unsummed pathPrefix name byteLength env).back) := by
  rw [toBytes_eq]
  simp only [ofEntry, front, back]

/-- The checksum is the sum of the bytes of the unsummed header. -/
theorem ustarSum_ofEntry : ustarSum (ofEntry pathPrefix name byteLength env).toBytes =
    ((unsummed pathPrefix name byteLength env).toBytes.map UInt8.toNat).sum := by
  have hspaces : (unsummed pathPrefix name byteLength env).chksum.bytes = List.replicate 8 32 := rfl
  have hlen := length_front (unsummed pathPrefix name byteLength env)
  have hchksum := (ofEntry pathPrefix name byteLength env).chksum.length_eq
  rw [ustarSum, toBytes_ofEntry, toBytes_eq (unsummed _ _ _ _), hspaces, List.take_left' hlen,
    ← List.append_assoc _ _ (back _), List.drop_left', List.append_assoc]
  rw [List.length_append, hlen, hchksum]

/-- A field of zeros into which a text was stored. -/
theorem mem_store_zero {n : ℕ} {s : Bytes} {c : UInt8}
    (h : c ∈ ((CharArray.zero n).store s).bytes) : c ∈ s ∨ c = 0 := by
  rcases List.mem_append.mp (List.mem_of_mem_take h) with hc | hc
  · exact Or.inl hc
  · exact Or.inr (List.eq_of_mem_replicate (List.mem_of_mem_drop hc))

/-- A field of zeros into which a number was cut. -/
theorem lt_of_mem_get {n w k count : ℕ} {c : UInt8}
    (h : c ∈ ((CharArray.zero n).get (fill 48 w (numeral 8 k)) count).bytes) : c.toNat < 128 := by
  rcases mem_store_zero h with hc | rfl
  · rcases List.mem_append.mp hc with hc | hc
    · have hdigit := isDigit_of_mem_fill_numeral (by omega) (by omega) (List.mem_of_mem_take hc)
      simp only [isDigit, Bool.and_eq_true, decide_eq_true_eq] at hdigit
      omega
    · rw [List.mem_singleton.mp hc]
      decide
  · decide

/-- Only the path can have bytes from 128 on. -/
theorem mem_toBytes_unsummed {c : UInt8}
    (h : c ∈ (unsummed pathPrefix name byteLength env).toBytes) (hc : 128 ≤ c.toNat) :
    c ∈ pathPrefix.take 154 ++ name.take 99 := by
  have hzero {n : ℕ} (hmem : c ∈ (CharArray.zero n).bytes) : False := by
    rw [List.eq_of_mem_replicate hmem] at hc
    exact absurd hc (by decide)
  have htext {n : ℕ} {s : Bytes} (hs : ∀ d ∈ s, d.toNat < 128)
      (hmem : c ∈ ((CharArray.zero n).store s).bytes) : False := by
    rcases mem_store_zero hmem with hmem | rfl
    · exact absurd (hs c hmem) (not_lt.mpr hc)
    · exact absurd hc (by decide)
  simp only [toBytes, List.mem_append] at h ⊢
  rcases h with h | h | h | h | h | h | h | h | h | h | h | h | h | h | h | h | h
  · rcases mem_store_zero h with h | rfl
    · exact Or.inr h
    · exact absurd hc (by decide)
  · exact absurd (lt_of_mem_get h) (not_lt.mpr hc)
  · exact (hzero h).elim
  · exact (hzero h).elim
  · exact absurd (lt_of_mem_get h) (not_lt.mpr hc)
  · exact absurd (lt_of_mem_get h) (not_lt.mpr hc)
  · exact (htext (s := List.replicate 8 32) (by decide +kernel) h).elim
  · exact (htext (s := [48]) (by decide +kernel) h).elim
  · exact (hzero h).elim
  · exact (htext (s := (lit "ustar").take 6) (by decide +kernel) h).elim
  · exact (htext (s := [48, 48]) (by decide +kernel) h).elim
  · exact (hzero h).elim
  · exact (hzero h).elim
  · exact (hzero h).elim
  · exact (hzero h).elim
  · rcases mem_store_zero h with h | rfl
    · exact Or.inl h
    · exact absurd hc (by decide)
  · exact (hzero h).elim

/-- What the header holds of the path is in it. -/
theorem mem_unsummed_of_mem {c : UInt8} (h : c ∈ pathPrefix.take 154 ++ name.take 99) :
    c ∈ (unsummed pathPrefix name byteLength env).toBytes := by
  have hfield {n k : ℕ} (hk : k ≤ n) {s : Bytes} (hmem : c ∈ s.take k) :
      c ∈ ((CharArray.zero n).copy s k).bytes := by
    show c ∈ ((CharArray.zero n).store (s.take k)).bytes
    rw [CharArray.bytes_store_zero ((List.length_take_le k s).trans hk)]
    exact List.mem_append_left _ hmem
  simp only [toBytes, List.mem_append] at h ⊢
  rcases h with h | h
  · have hmem := hfield (n := 155) (by omega) h
    tauto
  · exact Or.inl (hfield (by omega) h)

/-- The bytes that are negative as characters. -/
def negatives : ℕ :=
  if env.signedChar then highBytes (unsummed pathPrefix name byteLength env).toBytes else 0

/-- There is none exactly if `char` is unsigned, or what the header holds of the path is ASCII. -/
theorem negatives_eq_zero_iff : negatives pathPrefix name byteLength env = 0 ↔
    env.signedChar = false ∨ ∀ c ∈ pathPrefix.take 154 ++ name.take 99, c.toNat < 128 := by
  unfold negatives
  cases env.signedChar with
  | false => simp
  | true =>
    simp only [if_true, reduceCtorEq, false_or, highBytes, List.countP_eq_zero, decide_eq_true_eq,
      not_le]
    constructor
    · exact fun hall c hc => hall c (mem_unsummed_of_mem pathPrefix name byteLength env hc)
    · intro hall c hc
      by_contra hhigh
      exact hhigh (hall c (mem_toBytes_unsummed pathPrefix name byteLength env hc (not_lt.mp hhigh)))

/-- The sum of the bytes of a header fits six octal digits. -/
theorem sum_toNat_le (s : Bytes) : (s.map UInt8.toNat).sum ≤ 255 * s.length := by
  induction s with
  | nil => exact le_refl 0
  | cons c s ih =>
    have hc : c.toNat < 256 := c.toNat_lt
    rw [List.map_cons, List.sum_cons, List.length_cons]
    omega

/-- The text in the checksum field: the number is cut after seven characters. -/
theorem chksum_ofEntry : (ofEntry pathPrefix name byteLength env).chksum.bytes =
    (fill 48 6 (numeral 8 (checksum env.signedChar
      (unsummed pathPrefix name byteLength env).toBytes)) ++ [0, 32]).take 7 ++ [0] := by
  have hlen : ∀ n, 8 ≤ (fill 48 6 (numeral 8 n) ++ [0, 32]).length := by
    intro n
    simp only [fill, List.length_append, List.length_replicate, List.length_cons, List.length_nil]
    omega
  simp only [ofEntry, CharArray.get]
  generalize checksum _ _ = sum
  have hsum := hlen sum
  rw [CharArray.bytes_store, List.drop_eq_nil_of_le, List.append_nil]
  · rw [CharArray.length_eq, List.length_append, List.length_take, List.length_singleton]
    omega
  · rw [List.length_append, List.length_take, List.length_singleton]
    omega

/-- The checksum of the source is that of the format without its negative bytes. -/
theorem checksum_unsummed : checksum env.signedChar (unsummed pathPrefix name byteLength env).toBytes =
    (((ustarSum (ofEntry pathPrefix name byteLength env).toBytes : ℕ) -
      256 * (negatives pathPrefix name byteLength env : ℤ)) % 2 ^ 32).toNat := by
  rw [checksum, sum_charValue, ustarSum_ofEntry, negatives]

/-- The checksum field is that of the ustar format exactly if no byte counts as negative. -/
theorem hasChecksum_iff : HasChecksum (ofEntry pathPrefix name byteLength env).toBytes ↔
    negatives pathPrefix name byteLength env = 0 := by
  have hsum := checksum_unsummed pathPrefix name byteLength env
  have hle := sum_toNat_le (unsummed pathPrefix name byteLength env).toBytes
  rw [← ustarSum_ofEntry, length_toBytes] at hle
  have hfew : negatives pathPrefix name byteLength env ≤ headerLength := by
    unfold negatives
    split
    · exact List.countP_le_length.trans (length_toBytes _).le
    · exact Nat.zero_le _
  unfold headerLength at hle hfew
  rw [HasChecksum, substr_chksum, chksum_ofEntry]
  generalize checksum _ _ = sum at hsum ⊢
  generalize ustarSum _ = total at hsum hle ⊢
  generalize negatives _ _ _ _ = k at hsum hfew ⊢
  have hdigit : ∀ c ∈ fill 48 6 (numeral 8 sum), isDigit 8 c = true := fun c hc =>
    isDigit_of_mem_fill_numeral (by omega) (by omega) hc
  have hvalue : digitsValue 8 (fill 48 6 (numeral 8 sum)) = sum :=
    digitsValue_fill_numeral (by omega) (by omega) 6 sum
  -- Six digits are followed by the NUL that was written behind them.
  have hsix (hlen : (fill 48 6 (numeral 8 sum)).length = 6) :
      (fill 48 6 (numeral 8 sum) ++ [0, 32]).take 7 ++ [0] =
        fill 48 6 (numeral 8 sum) ++ 0 :: [0] := by
    have hcut : fill 48 6 (numeral 8 sum) ++ [0, 32] = fill 48 6 (numeral 8 sum) ++ [0] ++ [32] := by
      rw [List.append_assoc]
      rfl
    rw [hcut, List.take_left', List.append_assoc]
    · rfl
    · rw [List.length_append, hlen]
      rfl
  constructor
  · rintro ⟨digits, rest, hfield, hlen, -, htotal⟩
    have hmin : 6 ≤ (fill 48 6 (numeral 8 sum)).length := by
      simp only [fill, List.length_append, List.length_replicate]
      omega
    rcases hmin.eq_or_lt with hlen' | hlong
    · rw [hsix hlen'.symm] at hfield
      obtain ⟨hsame, -⟩ := List.append_inj hfield (by omega)
      have heq : sum = total := by rw [← hvalue, hsame, htotal]
      omega
    · -- With more digits, one of them is where the NUL should be.
      have hnul : (fill 48 6 (numeral 8 sum))[6]? = some 0 := by
        have hget : ((fill 48 6 (numeral 8 sum) ++ [0, 32]).take 7 ++ [0])[6]? =
            (digits ++ 0 :: rest)[6]? := by rw [hfield]
        rw [List.getElem?_append_left (by rw [List.length_take, List.length_append]; simp; omega),
          List.getElem?_take_of_lt (by omega), List.getElem?_append_left hlong,
          List.getElem?_append_right (by omega), hlen] at hget
        exact hget
      exact absurd (hdigit 0 (List.mem_of_getElem? hnul)) (by decide)
  · rintro rfl
    have heq : sum = total := by omega
    have hlen : (fill 48 6 (numeral 8 sum)).length = 6 :=
      length_fill (length_numeral_le (by omega) (by omega) (by omega))
    exact ⟨_, _, hsix hlen, hlen, hdigit, hvalue.trans heq⟩

end TarHeader

namespace TarArchive

/-- A write that returns normally hands the record to the stream, and counts its bytes. -/
theorem writePtr_done {a : TarArchive} {w : Write} {env : TarEnv} (h : (a.writePtr w env).2 = .done) :
    (a.writePtr w env).1.file = writeRecord (recordOf w env).header w.contents a.seekToEnd.file ∧
      (a.writePtr w env).1.maxPosition =
        a.seekToEnd.maxPosition + (headerLength + blockCeil w.contents.length) % sizeBound := by
  revert h
  unfold TarArchive.writePtr
  split
  · intro hthrow
    cases hthrow
  · simp only
    split
    · intro hthrow
      cases hthrow
    · refine fun _ => ⟨?_, rfl⟩
      show (if w.immediate then FStream.flush _ else _) = _
      split
      · rfl
      · rfl

/-- Outside `Read` mode, a write to a path that is not refused returns normally. -/
theorem writePtr_answer {a : TarArchive} {w : Write} {env : TarEnv} (hmode : a.mode ≠ .read)
    (h : refuses w.path = none) : (a.writePtr w env).2 = .done := by
  have hshort : ¬ 154 < (splitPath w.path).1.length := by
    rw [length_prefix_iff]
    intro hlong
    rw [refuses, if_pos hlong] at h
    cases h
  unfold TarArchive.writePtr
  simp only [hmode, hshort, if_false]

theorem maxPosition_seekToEnd (a : TarArchive) : a.seekToEnd.maxPosition = a.maxPosition := by
  unfold TarArchive.seekToEnd
  split
  · rfl
  · rfl

/-- In the header of a write that returns normally, the scan decodes the length of the contents, and
it looks for the next header where the next record goes: exactly if the length is below `8 ^ 11`. -/
theorem stored_size_iff {a : TarArchive} {w : Write} {env : TarEnv}
    (h : (a.writePtr w env).2 = .done) : ∃ header : Bytes, header.length = headerLength ∧
      (a.writePtr w env).1.file = writeRecord header w.contents a.seekToEnd.file ∧
      ((headerSize header = w.contents.length ∧
        ∀ (s : Scan) (file : FStream) (name : Bytes), s.offset = a.maxPosition →
          (s.add file name (headerSize header)).offset =
            (a.writePtr w env).1.maxPosition % sizeBound) ↔
        w.contents.length < sizeFieldBound) := by
  obtain ⟨hfile, hmax⟩ := writePtr_done h
  rw [maxPosition_seekToEnd] at hmax
  have hiff : headerSize (recordOf w env).header = w.contents.length ↔
      w.contents.length < sizeFieldBound := TarHeader.headerSize_ofEntry_iff _ _ _ _
  refine ⟨(recordOf w env).header, (recordOf w env).length_header, hfile, ?_⟩
  rw [← hiff]
  refine ⟨And.left, fun hsize => ⟨hsize, fun s file name hoffset => ?_⟩⟩
  rw [hsize, hmax, Nat.add_mod_mod, ← hoffset]
  rfl

/-- A write of two bytes. -/
theorem stored_size_two : ∃ a header, ofFile 2 (lit "a.tar") .write none = some (.ok a) ∧
    (a.writePtr ⟨lit "a", [1, 2], .noCompress, false⟩ { now := 0 }).1.file =
      writeRecord header [1, 2] a.seekToEnd.file ∧ headerSize header = 2 := by
  have hdone : ∃ a, ofFile 2 (lit "a.tar") .write none = some (.ok a) ∧
      (a.writePtr ⟨lit "a", [1, 2], .noCompress, false⟩ { now := 0 }).2 = .done :=
    ⟨_, rfl, by decide +kernel⟩
  obtain ⟨a, hfile, hdone⟩ := hdone
  obtain ⟨header, -, hwritten, hiff⟩ := stored_size_iff hdone
  exact ⟨a, header, hfile, hwritten, (hiff.mpr (by decide)).1⟩

/-- A write of `8 ^ 11` zeros returns normally, and its size field says `8 ^ 10`. -/
theorem stored_size_counterexample : ∃ a, ofFile 2 (lit "a.tar") .write none = some (.ok a) ∧
    let w : Write := ⟨lit "a", List.replicate (8 ^ 11) 0, .noCompress, false⟩
    (a.writePtr w { now := 0 }).2 = .done ∧ ∃ header,
      (a.writePtr w { now := 0 }).1.file = writeRecord header w.contents a.seekToEnd.file ∧
      headerSize header = 8 ^ 10 ∧ headerSize header ≠ w.contents.length := by
  obtain ⟨a, hopen, hmode, -⟩ := ofFile_write (lit "a.tar") none
  refine ⟨a, hopen 2 (le_refl 2), ?_⟩
  intro w
  have hdone : (a.writePtr w { now := 0 }).2 = .done := writePtr_answer hmode rfl
  refine ⟨hdone, _, (writePtr_done hdone).1, ?_⟩
  have hsize : headerSize (recordOf w { now := 0 }).header = 8 ^ 10 := by
    show headerSize (TarHeader.ofEntry _ _ w.contents.length _).toBytes = _
    rw [TarHeader.headerSize_eq, List.length_replicate]
    decide +kernel
  refine ⟨hsize, ?_⟩
  rw [hsize, List.length_replicate]
  decide

/-- The part of a path that the header holds. -/
theorem splitPath_append (path : Bytes) : (splitPath path).1 ++ (splitPath path).2 =
    if 99 < path.length then path.dropLast else path := by
  unfold splitPath
  split
  · next hlong =>
    have hcut : path.dropLast = path.take ((path.length - 100) + 99) := by
      rw [List.dropLast_eq_take]
      congr 1
      omega
    rw [hcut, List.take_add]
    rfl
  · rfl

/-- The checksum field of the header of a write that returns normally holds the checksum of the ustar
format, as six octal digits and a NUL: exactly if plain `char` is unsigned, or what the header holds
of the path is ASCII. -/
theorem stored_checksum_iff {a : TarArchive} {w : Write} {env : TarEnv}
    (h : (a.writePtr w env).2 = .done) : ∃ header : Bytes, header.length = headerLength ∧
      (a.writePtr w env).1.file = writeRecord header w.contents a.seekToEnd.file ∧
      (TarHeader.HasChecksum header ↔ env.signedChar = false ∨
        ∀ c ∈ (if 99 < w.path.length then w.path.dropLast else w.path), c.toNat < 128) := by
  refine ⟨_, (recordOf w env).length_header, (writePtr_done h).1, ?_⟩
  have hshort : (splitPath w.path).1.length ≤ 154 := by
    revert h
    unfold TarArchive.writePtr
    split
    · intro hthrow
      cases hthrow
    · simp only
      split
      · intro hthrow
        cases hthrow
      · next hle => exact fun _ => not_lt.mp hle
  have hname : (splitPath w.path).2.length ≤ 99 := by
    unfold splitPath
    split
    · exact List.length_take_le 99 _
    · next hle => exact not_lt.mp hle
  have hiff := TarHeader.negatives_eq_zero_iff (splitPath w.path).1 (splitPath w.path).2
    w.contents.length env
  rw [List.take_of_length_le hshort, List.take_of_length_le hname, splitPath_append] at hiff
  rw [← hiff]
  exact TarHeader.hasChecksum_iff _ _ _ _

/-- A path of ASCII characters, where `char` is signed. -/
theorem stored_checksum_ascii : ∃ a header, ofFile 2 (lit "a.tar") .write none = some (.ok a) ∧
    (a.writePtr ⟨lit "a", [1, 2], .noCompress, false⟩ { now := 0 }).1.file =
      writeRecord header [1, 2] a.seekToEnd.file ∧ TarHeader.HasChecksum header := by
  obtain ⟨a, hopen, hmode, -⟩ := ofFile_write (lit "a.tar") none
  let w : Write := ⟨lit "a", [1, 2], .noCompress, false⟩
  let env : TarEnv := { now := 0 }
  have hdone : (a.writePtr w env).2 = .done := writePtr_answer hmode rfl
  obtain ⟨header, -, hwritten, hiff⟩ := stored_checksum_iff hdone
  exact ⟨a, header, hopen 2 (le_refl 2), hwritten, hiff.mpr (Or.inr (by decide +kernel))⟩

/-- The two bytes of an `é` in the path, where `char` is signed. -/
theorem stored_checksum_counterexample : ∃ a, ofFile 2 (lit "a.tar") .write none = some (.ok a) ∧
    let w : Write := ⟨[195, 169], [], .noCompress, false⟩
    (a.writePtr w { now := 0 }).2 = .done ∧ ∃ header,
      (a.writePtr w { now := 0 }).1.file = writeRecord header w.contents a.seekToEnd.file ∧
      ¬TarHeader.HasChecksum header := by
  obtain ⟨a, hopen, hmode, -⟩ := ofFile_write (lit "a.tar") none
  refine ⟨a, hopen 2 (le_refl 2), ?_⟩
  intro w
  have hdone : (a.writePtr w { now := 0 }).2 = .done := writePtr_answer hmode rfl
  refine ⟨hdone, _, (writePtr_done hdone).1, ?_⟩
  have hiff : TarHeader.HasChecksum (recordOf w { now := 0 }).header ↔
      TarHeader.negatives [] [195, 169] 0 { now := 0 } = 0 := TarHeader.hasChecksum_iff _ _ _ _
  rw [hiff, TarHeader.negatives_eq_zero_iff]
  decide +kernel

end TarArchive

end Libgetar
