import Libgetar.Catalogue.Files
import Libgetar.Lib.Dict
import Libgetar.Lib.Utf8

/-!
# Records as Python objects

`getRecord` and `writeRecord` of `src/gtar/_gtar.pyx`. A text record is read as a string, or as a
byte string if it is not UTF-8, and any other as a numpy array of the dtype of its format, with as
many columns as the dictionary `widths` has for its name. The dtype of `uint8` is `c`, so that the
items are byte strings of one byte, and a write converts them back to `uint8`, which parses them as
decimal integers.

A string is the bytes that encode it, so that to decode is to check, and to encode does nothing. The
byte order of the dtypes, little endian, is that of the host. What numpy makes of contents that are
neither an array of the dtype in question nor byte strings for `uint8` is a parameter
(`Conversion`): no path is written in that way from what was read under it.

The archive is one behind any backend, whose calls take from their surroundings what depends on the
path. `transfer_spec` says when a record comes through a read of one archive and a write to another,
and as what: the write is the one that `record` makes.
-/

namespace Libgetar

open Lib

/-- The exceptions. -/
inductive PyError where
  | unicodeDecodeError
  | keyError
  | indexError
  | typeError
  | valueError
  | runtimeError (message : Bytes)
  | memoryError
  | fileNotFoundError
  | isADirectoryError
  | nameError (name : Bytes)
  | calledProcessError
deriving DecidableEq

/-- `unpy3str`. -/
def unpy3str (arg : Bytes) : Except PyError Bytes :=
  if IsUtf8 arg then .ok arg else .error .unicodeDecodeError

/-- What is decoded is UTF-8. -/
theorem unpy3str_eq_ok_iff {arg s : Bytes} : unpy3str arg = .ok s ↔ IsUtf8 arg ∧ s = arg := by
  unfold unpy3str
  split
  · next h => rw [and_iff_right h, Except.ok.injEq, eq_comm]
  · next h => exact iff_of_false (by simp) fun hs => h hs.1

/-- What is made of a string that is decoded. -/
theorem unpy3str_bind_eq_ok_iff {τ : Type} {arg : Bytes} {f : Bytes → τ} {x : τ} :
    (unpy3str arg >>= fun s => pure (f s)) = .ok x ↔ IsUtf8 arg ∧ x = f arg := by
  simp only [bind_eq_ok_iff, unpy3str_eq_ok_iff]
  constructor
  · rintro ⟨s, ⟨hutf8, rfl⟩, h⟩
    exact ⟨hutf8, (Except.ok.inj h).symm⟩
  · rintro ⟨hutf8, rfl⟩
    exact ⟨_, ⟨hutf8, rfl⟩, rfl⟩

/-- The archive behind the wrapper, which takes every path. -/
abbrev mapBackend : Backend Store Unit := storeBackend fun _ => none

/-! ## Arrays -/

/-- The size of the items of a binary format. -/
def Format.itemSize : Format → ℕ
  | .float32 => 4
  | .float64 => 8
  | .int32 => 4
  | .int64 => 8
  | .uint8 => 1
  | .uint32 => 4
  | .uint64 => 8

/-- The dtypes. -/
inductive Dtype where
  /-- The numbers of a binary format. -/
  | number (format : Format)
  /-- `c`: byte strings of one byte. -/
  | char
deriving DecidableEq

/-- The size of the items of a dtype. -/
def Dtype.itemSize : Dtype → ℕ
  | .number format => format.itemSize
  | .char => 1

/-- `formats` of `_arrayRecord`. -/
def formats : Format → Dtype
  | .float32 => .number .float32
  | .float64 => .number .float64
  | .int32 => .number .int32
  | .int64 => .number .int64
  | .uint32 => .number .uint32
  | .uint64 => .number .uint64
  | .uint8 => .char

/-- The dtype of a format has items of its size. -/
theorem itemSize_formats (format : Format) : (formats format).itemSize = format.itemSize := by
  cases format <;> rfl

/-- The number of columns of a property. -/
def widths : Dict Bytes ℕ where
  entries := [(lit "position", 3), (lit "velocity", 3), (lit "orientation", 4), (lit "image", 3),
    (lit "angular_momentum", 3), (lit "angular_momentum_quat", 4), (lit "moment_inertia", 3),
    (lit "virial", 6), (lit "center_of_mass", 3)]
  nodup := by decide

/-- An array. -/
structure NdArray where
  dtype : Dtype
  /-- The bytes of the items, in order. -/
  data : Bytes
  /-- The number of columns, if there are two dimensions. -/
  columns : Option ℕ
  /-- The items are whole. -/
  whole : data.length % dtype.itemSize = 0

/-- The number of items. -/
def NdArray.size (a : NdArray) : ℕ := a.data.length / a.dtype.itemSize

/-- `np.frombuffer(buf, dtype)`. -/
def frombuffer (buf : Bytes) (dtype : Dtype) : Except PyError NdArray :=
  if h : buf.length % dtype.itemSize = 0 then .ok ⟨dtype, buf, none, h⟩ else .error .valueError

/-- `a.reshape((-1, width))`. -/
def NdArray.reshape (a : NdArray) (width : ℕ) : Except PyError NdArray :=
  if a.size % width = 0 then .ok { a with columns := some width } else .error .valueError

/-- `_arrayRecord`. -/
def arrayRecord (buf : Bytes) (r : Record) : Except PyError NdArray := do
  let result ← frombuffer buf (formats r.format)
  let name ← unpy3str r.name
  match widths.get? name with
  | some width => result.reshape width
  | none => return result

/-! ## Reading and writing -/

/-- What a record is read as. -/
inductive Contents where
  | str (s : Bytes)
  | bytes (s : Bytes)
  | array (a : NdArray)

/-- What numpy makes of contents as an array of a format. -/
abbrev Conversion := Contents → Format → Except PyError Bytes

/-- Parses a byte string of one byte as a decimal integer. -/
def parseItem (c : UInt8) : Except PyError UInt8 :=
  if 48 ≤ c ∧ c ≤ 57 then .ok (c - 48) else .error .valueError

/-- The bytes of `np.ascontiguousarray(np.asarray(contents).flat, dtype)`. -/
def ascontiguousarray (convert : Conversion) (contents : Contents) (format : Format) :
    Except PyError Bytes :=
  match contents with
  | .array a =>
    match a.dtype with
    | .char => if format = .uint8 then a.data.mapM parseItem else convert contents format
    | .number f => if f = format then .ok a.data else convert contents format
  | _ => convert contents format

/-- What is raised for a C++ exception. -/
def pyError (message : Bytes) : PyError :=
  if message = badAlloc then .memoryError else .runtimeError message

variable {σ ε : Type*}

/-- A C++ exception is raised as one of Python. -/
def raised (result : Gtar σ × Answer) : Gtar σ × Option PyError :=
  (result.1, result.2.message?.map pyError)

section
variable (B : Backend σ ε) (env : Bytes → ε)

/-- What `getRecord` makes of what `readBytes` returns. A null array has no elements. -/
def contentsOfAnswer (rec' : Record) : Answer → Except PyError Contents
  | .array inter =>
    let result := inter.getD []
    if rec'.resolution ≠ .text then
      (arrayRecord result rec').map .array
    else
      match unpy3str result with
      | .ok s => .ok (.str s)
      | .error _ => .ok (.bytes result)
  | .threw message => .error (pyError message)
  | _ => .ok (.bytes [])

/-- `getRecord`. -/
def getRecord (inp : Gtar σ) (query : Record) (index : Bytes) : Gtar σ × Except PyError Contents :=
  let rec' := if index ≠ [] then query.setIndex index else query
  let (inp, answer) := inp.readBytes B rec'.getPath (env rec'.getPath)
  (inp, contentsOfAnswer rec' answer)

/-- `readPath`. -/
def readPath (inp : Gtar σ) (path : Bytes) : Gtar σ × Except PyError Contents :=
  let rec' := Record.ofPath path
  match unpy3str rec'.index with
  | .ok index => getRecord B env inp rec' index
  | .error e => (inp, .error e)

/-- `writeBytes`. -/
def writeBytes (out : Gtar σ) (path contents : Bytes) : Gtar σ × Option PyError :=
  raised (out.writeString B path contents .fastCompress true (env path))

/-- `writeStr`. -/
def writeStr (out : Gtar σ) (path contents : Bytes) : Gtar σ × Option PyError :=
  writeBytes B env out path contents

variable (convert : Conversion)

/-- `writeArray`. -/
def writeArray (out : Gtar σ) (path : Bytes) (arr : Contents) (dtype : Format) :
    Gtar σ × Option PyError :=
  match ascontiguousarray convert arr dtype with
  | .error e => (out, some e)
  | .ok carr => raised (out.writePtr B path carr .fastCompress true (env path))

/-- `writeRecord`. -/
def writeRecord (out : Gtar σ) (r : Record) (contents : Contents) : Gtar σ × Option PyError :=
  if r.resolution = .text then
    match contents, unpy3str r.getPath with
    | .str s, .ok path => writeStr B env out path s
    | .bytes s, .ok path => writeBytes B env out path s
    | .array _, _ => (out, some (.runtimeError (lit "Not sure how to serialize the given argument!")))
    | _, .error e => (out, some e)
  else
    match unpy3str r.getPath with
    | .ok path => writeArray B env convert out path contents r.format
    | .error e => (out, some e)

/-- `writePath`. -/
def writePath (out : Gtar σ) (path : Bytes) (contents : Contents) : Gtar σ × Option PyError :=
  writeRecord B env convert out (Record.ofPath path) contents

/-- `out.writePath(path, inp.readPath(path))`, with the backends of the input and of the output. -/
def transfer (B' : Backend σ ε) (archives : Gtar σ × Gtar σ) (path : Bytes) :
    (Gtar σ × Gtar σ) × Option PyError :=
  let (inp, out) := archives
  match readPath B env inp path with
  | (inp, .ok contents) =>
    let (out, pending) := writePath B' env convert out path contents
    ((inp, out), pending)
  | (inp, .error e) => ((inp, out), some e)

end

/-! ## Paths of records -/

namespace Record

/-- The suffixes of a name are below 128. -/
theorem suffix_ascii (r : Record) :
    ∀ c ∈ (if r.resolution ≠ .text then r.format.suffix else []) ++ r.resolution.suffix, c < 128 := by
  have hall : ∀ (format : Format) (resolution : Resolution),
      ∀ c ∈ (if resolution ≠ .text then format.suffix else []) ++ resolution.suffix, c < 128 := by
    intro format resolution
    cases format <;> cases resolution <;> decide +kernel
  exact hall r.format r.resolution

/-- A full name is UTF-8 when the name is. -/
theorem isUtf8_fullName (r : Record) : IsUtf8 r.fullName ↔ IsUtf8 r.name := by
  rw [fullName, List.append_assoc, isUtf8_append_ascii r.suffix_ascii]

/-- A path is UTF-8 when the fields that it is printed from are. -/
theorem isUtf8_getPath (r : Record) : IsUtf8 r.getPath ↔
    IsUtf8 r.group ∧ (r.behavior ≠ .constant → IsUtf8 r.index) ∧ IsUtf8 r.name := by
  have hslash : slash < 128 := by decide
  -- The group is cut off at its separator.
  have hgroup (rest : Bytes) :
      IsUtf8 ((if r.group.length ≠ 0 then r.group ++ [slash] else []) ++ rest) ↔
        IsUtf8 r.group ∧ IsUtf8 rest := by
    split
    · rw [List.append_assoc, List.singleton_append, isUtf8_append_cons hslash]
    · next hempty =>
      have hnil : r.group = [] := List.length_eq_zero_iff.mp (not_not.mp hempty)
      rw [hnil, List.nil_append, and_iff_right isUtf8_nil]
  rw [getPath, hgroup]
  refine and_congr_right fun _ => ?_
  cases hb : r.behavior with
  | constant => simp [isUtf8_fullName]
  | discrete =>
    simp only [List.append_assoc, List.singleton_append]
    rw [isUtf8_ascii_append (by decide +kernel), isUtf8_append_cons hslash, isUtf8_fullName]
    simp
  | continuous =>
    simp only [List.append_assoc, List.singleton_append]
    rw [isUtf8_ascii_append (by decide +kernel), isUtf8_append_cons hslash, isUtf8_fullName, and_comm]
    simp

/-- A parsed path that is UTF-8 has an index that is, and so is the path of its type. -/
theorem isUtf8_of_getPath {r : Record} (hr : r.Canonical) (h : IsUtf8 r.getPath) :
    IsUtf8 r.index ∧ IsUtf8 r.withNullifiedIndex.getPath := by
  obtain ⟨hgroup, hindex, hname⟩ := r.isUtf8_getPath.mp h
  refine ⟨?_, r.withNullifiedIndex.isUtf8_getPath.mpr ⟨hgroup, fun _ => isUtf8_nil, hname⟩⟩
  by_cases hconstant : r.behavior = .constant
  · rw [hr.constant_index hconstant]
    exact isUtf8_nil
  · exact hindex hconstant

end Record

/-! ## What comes through -/

/-- A record with these contents comes through a read and a write. -/
def Transfers (r : Record) (contents : Bytes) : Prop :=
  r.resolution = .text ∨
    contents.length % r.format.itemSize = 0 ∧
    (∀ width ∈ widths.get? r.name, contents.length / r.format.itemSize % width = 0) ∧
    (r.format = .uint8 → ∀ c ∈ contents, 48 ≤ c ∧ c ≤ 57)

/-- What it comes through as. -/
def transferred (r : Record) (contents : Bytes) : Bytes :=
  if r.resolution ≠ .text ∧ r.format = .uint8 then contents.map fun c => c - 48 else contents

/-- The array of a record, when its items are whole. -/
theorem arrayRecord_of_whole {r : Record} (hname : IsUtf8 r.name) {contents : Bytes}
    (h : contents.length % (formats r.format).itemSize = 0) : arrayRecord contents r =
      match widths.get? r.name with
      | some width => NdArray.reshape ⟨formats r.format, contents, none, h⟩ width
      | none => .ok ⟨formats r.format, contents, none, h⟩ := by
  have hdecode : unpy3str r.name = .ok r.name := if_pos hname
  have hbuffer : frombuffer contents (formats r.format) = .ok ⟨formats r.format, contents, none, h⟩ :=
    dif_pos h
  unfold arrayRecord
  rw [hbuffer, hdecode]
  rfl

/-- There is an array of a record exactly when the number of bytes fits, and these are its data. -/
theorem arrayRecord_spec {r : Record} (hname : IsUtf8 r.name) (contents : Bytes) :
    if contents.length % r.format.itemSize = 0 ∧
        ∀ width ∈ widths.get? r.name, contents.length / r.format.itemSize % width = 0
    then ∃ a, arrayRecord contents r = .ok a ∧ a.dtype = formats r.format ∧ a.data = contents
    else ∃ e, arrayRecord contents r = .error e := by
  rw [← itemSize_formats]
  by_cases hwhole : contents.length % (formats r.format).itemSize = 0
  · rw [arrayRecord_of_whole hname hwhole]
    cases hwidth : widths.get? r.name with
    | none =>
      rw [if_pos ⟨hwhole, fun width h => by cases h⟩]
      exact ⟨_, rfl, rfl, rfl⟩
    | some width =>
      by_cases hrows : contents.length / (formats r.format).itemSize % width = 0
      · rw [if_pos ⟨hwhole, fun width' h => Option.some.inj h ▸ hrows⟩]
        exact ⟨_, if_pos hrows, rfl, rfl⟩
      · rw [if_neg fun h => hrows (h.2 width rfl)]
        exact ⟨_, if_neg hrows⟩
  · rw [if_neg fun h => hwhole h.1]
    have hbuffer : frombuffer contents (formats r.format) = .error .valueError := dif_neg hwhole
    refine ⟨.valueError, ?_⟩
    unfold arrayRecord
    rw [hbuffer]
    rfl

/-- Items parse when all of them are decimal digits. -/
theorem mapM_parseItem (contents : Bytes) :
    contents.mapM parseItem =
      if ∀ c ∈ contents, 48 ≤ c ∧ c ≤ 57 then .ok (contents.map fun c => c - 48)
      else .error .valueError := by
  induction contents with
  | nil =>
    rw [List.mapM_nil, if_pos (List.forall_mem_nil _)]
    rfl
  | cons c contents ih =>
    rw [List.mapM_cons, ih, parseItem]
    by_cases hc : 48 ≤ c ∧ c ≤ 57
    · by_cases hrest : ∀ d ∈ contents, 48 ≤ d ∧ d ≤ 57
      · have hall : ∀ d ∈ c :: contents, 48 ≤ d ∧ d ≤ 57 := List.forall_mem_cons.mpr ⟨hc, hrest⟩
        rw [if_pos hc, if_pos hrest, if_pos hall]
        rfl
      · have hall : ¬∀ d ∈ c :: contents, 48 ≤ d ∧ d ≤ 57 := fun h =>
          hrest (List.forall_mem_cons.mp h).2
        rw [if_pos hc, if_neg hrest, if_neg hall]
        rfl
    · have hall : ¬∀ d ∈ c :: contents, 48 ≤ d ∧ d ≤ 57 := fun h =>
        hc (List.forall_mem_cons.mp h).1
      rw [if_neg hc, if_neg hall]
      rfl

/-- An array of the dtype of a format, as an array of the format. -/
theorem ascontiguousarray_formats (convert : Conversion) {a : NdArray} {format : Format}
    (h : a.dtype = formats format) : ascontiguousarray convert (.array a) format =
      if format = .uint8 then a.data.mapM parseItem else .ok a.data := by
  unfold ascontiguousarray
  simp only [h]
  cases format <;> rfl

/-- A call leaves the archive and raises an exception as `record` does. -/
def Records (result : Gtar σ × Option PyError) (recorded : σ × Option Bytes) : Prop :=
  result.1.archive = some recorded.1 ∧ (result.2 = none ↔ recorded.2 = none)

section

variable {B : Backend σ ε} {env : Bytes → ε} {inp out : Gtar σ} {s t : σ} {r : Record}
  {contents : Contents}

/-- A write is the one that `record` makes. -/
theorem records_raised_write (B : Backend σ ε) (env : Bytes → ε) (hout : out.archive = some t)
    (function path data : Bytes) :
    Records (raised (out.write function B ⟨path, data, .fastCompress, true⟩ (env path)))
      (record B env t (path, data)) := by
  unfold Records raised Gtar.write record
  rw [hout]
  simp only [Option.map_eq_none_iff]
  split
  · next hdone =>
    rw [hdone]
    exact ⟨rfl, Iff.rfl⟩
  · exact ⟨rfl, Iff.rfl⟩

/-- A record whose path is not UTF-8 is not written. -/
theorem writeRecord_of_not_isUtf8 (B : Backend σ ε) (env : Bytes → ε) (convert : Conversion)
    (out : Gtar σ) (h : ¬IsUtf8 r.getPath) (contents : Contents) :
    ∃ e, writeRecord B env convert out r contents = (out, some e) := by
  have hdecode : unpy3str r.getPath = .error .unicodeDecodeError := if_neg h
  unfold writeRecord
  rw [hdecode]
  split
  · cases contents <;> exact ⟨_, rfl⟩
  · exact ⟨_, rfl⟩

/-- A text record is written as it is. -/
theorem records_writeRecord_text (B : Backend σ ε) (env : Bytes → ε) (convert : Conversion)
    (hout : out.archive = some t) (hpath : IsUtf8 r.getPath) (htext : r.resolution = .text)
    {data : Bytes} (hdata : contents = .str data ∨ contents = .bytes data) :
    Records (writeRecord B env convert out r contents) (record B env t (r.getPath, data)) := by
  have hdecode : unpy3str r.getPath = .ok r.getPath := if_pos hpath
  unfold writeRecord
  rw [if_pos htext, hdecode]
  rcases hdata with rfl | rfl
  · exact records_raised_write B env hout _ _ _
  · exact records_raised_write B env hout _ _ _

/-- The array of a record is written if the items of the dtype `c` parse. -/
theorem records_writeRecord_array (B : Backend σ ε) (env : Bytes → ε) (convert : Conversion)
    (hout : out.archive = some t) (hpath : IsUtf8 r.getPath) (htext : r.resolution ≠ .text)
    {a : NdArray} (ha : a.dtype = formats r.format) :
    if r.format = .uint8 → ∀ c ∈ a.data, 48 ≤ c ∧ c ≤ 57 then
      Records (writeRecord B env convert out r (.array a))
        (record B env t (r.getPath, transferred r a.data))
    else (writeRecord B env convert out r (.array a)).2 ≠ none := by
  have hdecode : unpy3str r.getPath = .ok r.getPath := if_pos hpath
  unfold writeRecord writeArray
  rw [if_neg htext, hdecode]
  simp only
  rw [ascontiguousarray_formats convert ha, mapM_parseItem]
  by_cases hformat : r.format = .uint8
  · have hparsed : transferred r a.data = a.data.map fun c => c - 48 := if_pos ⟨htext, hformat⟩
    rw [if_pos hformat, hparsed]
    simp only [hformat, forall_const]
    by_cases hdigits : ∀ c ∈ a.data, 48 ≤ c ∧ c ≤ 57
    · rw [if_pos hdigits, if_pos hdigits]
      exact records_raised_write B env hout _ _ _
    · rw [if_neg hdigits, if_neg hdigits]
      exact Option.some_ne_none _
  · have hsame : transferred r a.data = a.data := if_neg fun h => hformat h.2
    rw [if_pos fun h => absurd h hformat, if_neg hformat, hsame]
    exact records_raised_write B env hout _ _ _

/-- The archive is open and is read as the log. -/
def Serves (B : Backend σ ε) (env : Bytes → ε) (inp : Gtar σ) (log : Store) : Prop :=
  ∃ s, inp.archive = some s ∧ ReadsAs B env s log

variable {log : Store}

/-- What is read under a path whose index is UTF-8. -/
theorem Serves.readPath (h : Serves B env inp log) {path : Bytes}
    (hindex : IsUtf8 (Record.ofPath path).index) :
    let r := Record.ofPath path
    Serves B env (readPath B env inp path).1 log ∧
      (readPath B env inp path).2 = contentsOfAnswer r (.array (lastWrite log r.getPath)) := by
  intro r
  obtain ⟨s, hs, hreads⟩ := h
  have hdecode : unpy3str r.index = .ok r.index := if_pos hindex
  -- The index that is set is the one that the record has.
  have hrecord : (if r.index ≠ [] then r.setIndex r.index else r) = r := by
    split
    · rfl
    · rfl
  obtain ⟨hanswer, hnext⟩ := hreads.read r.getPath
  unfold Libgetar.readPath
  simp only [show Record.ofPath path = r from rfl, hdecode]
  unfold getRecord Gtar.readBytes
  simp only [hrecord, hs]
  exact ⟨⟨_, rfl, hnext⟩, congrArg _ hanswer⟩

/-- An archive that cannot be read under a path is read as before. -/
theorem Serves.readPath_serves (h : Serves B env inp log) (path : Bytes) :
    Serves B env (Libgetar.readPath B env inp path).1 log := by
  by_cases hindex : IsUtf8 (Record.ofPath path).index
  · exact (h.readPath hindex).1
  · have hdecode : unpy3str (Record.ofPath path).index = .error .unicodeDecodeError := if_neg hindex
    unfold Libgetar.readPath
    simp only [hdecode]
    exact h

/-- What is made of the contents of a record. -/
theorem contentsOfAnswer_array (r : Record) (data : Option Bytes) :
    contentsOfAnswer r (.array data) =
      if r.resolution ≠ .text then (arrayRecord (data.getD []) r).map .array
      else if IsUtf8 (data.getD []) then .ok (.str (data.getD [])) else .ok (.bytes (data.getD [])) := by
  unfold contentsOfAnswer unpy3str
  simp only
  split
  · rfl
  · by_cases hutf8 : IsUtf8 (data.getD [])
    · rw [if_pos hutf8, if_pos hutf8]
    · rw [if_neg hutf8, if_neg hutf8]

/-- What is made of the contents of a record is written if it comes through, and otherwise there is
nothing that is written. -/
theorem records_writeRecord_contents (B : Backend σ ε) (env : Bytes → ε) (convert : Conversion)
    (hout : out.archive = some t) (hpath : IsUtf8 r.getPath) (data : Option Bytes) :
    (Transfers r (data.getD []) → ∃ obj, contentsOfAnswer r (.array data) = .ok obj ∧
      Records (writeRecord B env convert out r obj)
        (record B env t (r.getPath, transferred r (data.getD [])))) ∧
    (¬Transfers r (data.getD []) → ∀ obj, contentsOfAnswer r (.array data) = .ok obj →
      (writeRecord B env convert out r obj).2 ≠ none) := by
  rw [contentsOfAnswer_array]
  generalize data.getD [] = data
  by_cases htext : r.resolution = .text
  · -- A string or a byte string, with the same bytes.
    have hsame : transferred r data = data := if_neg fun h => h.1 htext
    rw [if_neg (not_not.mpr htext), hsame]
    refine ⟨fun _ => ?_, fun hnot => absurd (Or.inl htext) hnot⟩
    split
    · exact ⟨_, rfl, records_writeRecord_text B env convert hout hpath htext (Or.inl rfl)⟩
    · exact ⟨_, rfl, records_writeRecord_text B env convert hout hpath htext (Or.inr rfl)⟩
  · -- An array, if the contents are whole items and rows.
    obtain ⟨-, -, hname⟩ := r.isUtf8_getPath.mp hpath
    have harray := arrayRecord_spec hname data
    unfold Transfers
    rw [if_pos htext, or_iff_right htext]
    split at harray
    · next hfits =>
      obtain ⟨a, ha, hdtype, rfl⟩ := harray
      have hwrite := records_writeRecord_array B env convert hout hpath htext hdtype
      rw [ha, and_iff_right hfits.1, and_iff_right hfits.2]
      split at hwrite
      · next hdigits => exact ⟨fun _ => ⟨_, rfl, hwrite⟩, fun hnot => absurd hdigits hnot⟩
      · next hdigits =>
        refine ⟨fun h => absurd h hdigits, fun _ obj hobj => ?_⟩
        cases hobj
        exact hwrite
    · next hfits =>
      obtain ⟨e, he⟩ := harray
      rw [he]
      exact ⟨fun h => absurd ⟨h.1, h.2.1⟩ hfits, fun _ obj hobj => by cases hobj⟩

section

variable {convert : Conversion} {B' : Backend σ ε} {path : Bytes}

/-- What is read is written. -/
theorem transfer_of_ok {obj : Contents} (h : (readPath B env inp path).2 = .ok obj) :
    transfer B env convert B' (inp, out) path =
      (((readPath B env inp path).1, (writePath B' env convert out path obj).1),
        (writePath B' env convert out path obj).2) := by
  unfold transfer
  simp only
  generalize readPath B env inp path = found at h ⊢
  obtain ⟨inp', _⟩ := found
  obtain rfl := h
  rfl

/-- What cannot be read is not. -/
theorem transfer_of_error {e : PyError} (h : (readPath B env inp path).2 = .error e) :
    transfer B env convert B' (inp, out) path = (((readPath B env inp path).1, out), some e) := by
  unfold transfer
  simp only
  generalize readPath B env inp path = found at h ⊢
  obtain ⟨inp', _⟩ := found
  obtain rfl := h
  rfl

end

/-- A record is read and written if its path is UTF-8 and it comes through with its contents, and then
what it comes through as is written under the path of the record. Otherwise an exception is raised. -/
theorem transfer_spec (convert : Conversion) (B' : Backend σ ε) (hinp : Serves B env inp log)
    (hout : out.archive = some t) (path : Bytes) :
    let r := Record.ofPath path
    let data := (lastWrite log r.getPath).getD []
    let result := transfer B env convert B' (inp, out) path
    Serves B env result.1.1 log ∧
      (IsUtf8 r.getPath ∧ Transfers r data →
        Records (result.1.2, result.2) (record B' env t (r.getPath, transferred r data))) ∧
      (¬(IsUtf8 r.getPath ∧ Transfers r data) → result.2 ≠ none) := by
  intro r data result
  have hserves := hinp.readPath_serves path
  have hread (hpath : IsUtf8 r.getPath) : (readPath B env inp path).2 =
      contentsOfAnswer r (.array (lastWrite log r.getPath)) :=
    (hinp.readPath (Record.isUtf8_of_getPath (Record.ofPath_canonical path) hpath).1).2
  refine ⟨?_, ?_, fun hnot => ?_⟩
  · cases h : (readPath B env inp path).2 with
    | ok obj =>
      rw [show result = _ from transfer_of_ok h]
      exact hserves
    | error e =>
      rw [show result = _ from transfer_of_error h]
      exact hserves
  · rintro ⟨hpath, hthrough⟩
    obtain ⟨obj, hobj, hwritten⟩ :=
      (records_writeRecord_contents B' env convert hout hpath _).1 hthrough
    rw [show result = _ from transfer_of_ok ((hread hpath).trans hobj)]
    exact hwritten
  · cases h : (readPath B env inp path).2 with
    | ok obj =>
      rw [show result = _ from transfer_of_ok h]
      by_cases hpath : IsUtf8 r.getPath
      · exact (records_writeRecord_contents B' env convert hout hpath _).2
          (fun hthrough => hnot ⟨hpath, hthrough⟩) obj ((hread hpath).symm.trans h)
      · -- The path cannot be decoded.
        obtain ⟨e, he⟩ := writeRecord_of_not_isUtf8 B' env convert out hpath obj
        rw [writePath, he]
        exact Option.some_ne_none _
    | error e =>
      rw [show result = _ from transfer_of_error h]
      exact Option.some_ne_none _

end

/-! ## An archive that takes every path -/

namespace MapArchive

/-- `getRecord`, of an archive that it leaves as it is (`getRecord_fst`). -/
def getRecord (g : Gtar Store) (query : Record) (index : Bytes) : Except PyError Contents :=
  (Libgetar.getRecord mapBackend (fun _ => ()) g query index).2

/-- `readPath`. -/
def readPath (g : Gtar Store) (path : Bytes) : Except PyError Contents :=
  (Libgetar.readPath mapBackend (fun _ => ()) g path).2

/-- `writeRecord`. -/
def writeRecord (convert : Conversion) (g : Gtar Store) (r : Record) (contents : Contents) :
    Gtar Store × Option PyError :=
  Libgetar.writeRecord mapBackend (fun _ => ()) convert g r contents

/-- `writePath`. -/
def writePath (convert : Conversion) (g : Gtar Store) (path : Bytes) (contents : Contents) :
    Gtar Store × Option PyError :=
  Libgetar.writePath mapBackend (fun _ => ()) convert g path contents

theorem getRecord_fst (g : Gtar Store) (query : Record) (index : Bytes) :
    (Libgetar.getRecord mapBackend (fun _ => ()) g query index).1 = g := by
  obtain ⟨archive, records, indexedFrames⟩ := g
  cases archive <;> rfl

/-- It is read as what it maps paths to. -/
theorem serves {g : Gtar Store} {kept : Store} (hopen : g.archive = some kept) :
    Serves mapBackend (fun _ => ()) g kept := by
  refine ⟨kept, hopen, ReadsAs.of_keeps (fun s => s = kept) ?_ rfl⟩
  rintro _ path rfl
  exact ⟨rfl, rfl⟩

end MapArchive

end Libgetar
