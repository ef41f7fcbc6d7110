import Libgetar.Tar.Model

/-!
# The layout of a tar file

A tar file is a list of entries, each a header block, data, and padding to a multiple of 512 bytes.
`image` are the bytes of the file, `index` says under which name each entry's data lies where, and
`contents` is the log of the names and data. A slice of the image at an indexed position is the data
(`lastWrite_contents`).

`Holds a es tail` is the invariant of an open archive: its file consists of the entries and `tail`,
its maps are the index, the next record goes right behind the entries, and `filePosition` is the
position of the stream. Reading keeps it whatever is read (`Holds.read`), a refused write too
(`Holds.writePtr_refused`), and an accepted one appends an entry (`Holds.writePtr_accepted`).
-/

namespace Libgetar

open Lib

namespace TarArchive

/-- The number of bytes between `n` and the next multiple of 512. -/
def padLength (n : ℕ) : ℕ := (512 - n % 512) % 512

/-- An entry of a tar file, and the name under which it is found. -/
structure Entry where
  name : Bytes
  header : Bytes
  data : Bytes
  padding : Bytes
  length_header : header.length = headerLength
  length_padding : padding.length = padLength data.length

namespace Entry

/-- The bytes of an entry. -/
def bytes (e : Entry) : Bytes := e.header ++ e.data ++ e.padding

/-- The number of bytes of an entry. -/
def length (e : Entry) : ℕ := headerLength + e.data.length + padLength e.data.length

theorem length_bytes (e : Entry) : e.bytes.length = e.length := by
  simp only [bytes, length, List.length_append, e.length_header, e.length_padding]

end Entry

/-- The bytes of the entries. -/
def image (es : List Entry) : Bytes := es.flatMap Entry.bytes

/-- For each entry, its name, and the position and length of its data, in a file where the first
entry begins at `pos`. -/
def indexFrom : ℕ → List Entry → List (Bytes × (ℕ × ℕ))
  | _, [] => []
  | pos, e :: es => (e.name, (pos + headerLength, e.data.length)) :: indexFrom (pos + e.length) es

/-- The index of a file that begins with the entries. -/
def index (es : List Entry) : List (Bytes × (ℕ × ℕ)) := indexFrom 0 es

/-- The names and the data of the entries. -/
def contents (es : List Entry) : Store := es.map fun e => (e.name, e.data)

@[simp] theorem image_nil : image [] = [] := rfl

@[simp] theorem image_cons (e : Entry) (es : List Entry) : image (e :: es) = e.bytes ++ image es :=
  rfl

@[simp] theorem image_append (es es' : List Entry) : image (es ++ es') = image es ++ image es' :=
  List.flatMap_append

@[simp] theorem image_singleton (e : Entry) : image [e] = e.bytes := by simp

/-- An entry is not longer than the image. -/
theorem length_le_of_mem {e : Entry} {es : List Entry} (h : e ∈ es) :
    e.length ≤ (image es).length := by
  obtain ⟨front, back, rfl⟩ := List.append_of_mem h
  simp only [image_append, image_cons, List.length_append, e.length_bytes]
  omega

theorem indexFrom_append (es es' : List Entry) (pos : ℕ) :
    indexFrom pos (es ++ es') = indexFrom pos es ++ indexFrom (pos + (image es).length) es' := by
  induction es generalizing pos with
  | nil => simp [indexFrom]
  | cons e es ih =>
    simp only [List.cons_append, indexFrom, ih, image_cons, List.length_append, Entry.length_bytes,
      Nat.add_assoc]

/-- The index with one more entry. -/
theorem index_concat (es : List Entry) (e : Entry) :
    index (es ++ [e]) =
      index es ++ [(e.name, ((image es).length + headerLength, e.data.length))] := by
  rw [index, indexFrom_append, Nat.zero_add]
  rfl

/-- Where the index points, there are the data of the last entry with the name. -/
theorem lastWrite_contents (es : List Entry) (path : Bytes) :
    (∀ off len, lastWrite (index es) path = some (off, len) → off + len ≤ (image es).length) ∧
      lastWrite (contents es) path =
        (lastWrite (index es) path).map fun found => substr (image es) found.1 found.2 := by
  induction es using List.reverseRecOn with
  | nil => exact ⟨by simp [index, indexFrom], rfl⟩
  | append_singleton es e ih =>
    obtain ⟨hin, hdata⟩ := ih
    have hcontents : contents (es ++ [e]) = contents es ++ [(e.name, e.data)] := by simp [contents]
    simp only [hcontents, index_concat, lastWrite_concat, image_append, image_singleton,
      List.length_append, Entry.length_bytes, Entry.length]
    split
    · -- The new entry: its data stand behind its header.
      refine ⟨?_, ?_⟩
      · rintro off len h
        cases h
        omega
      · have hcut : image es ++ e.bytes = (image es ++ e.header) ++ (e.data ++ e.padding) := by
          simp only [Entry.bytes, List.append_assoc]
        have hdrop : (image es ++ e.header).length = (image es).length + headerLength := by
          rw [List.length_append, e.length_header]
        simp only [Option.map_some]
        rw [hcut, substr, ← hdrop, List.drop_left, List.take_left]
    · -- An older entry: its data lie inside the old image.
      refine ⟨fun off len h => ?_, ?_⟩
      · have := hin off len h
        omega
      · rw [hdata]
        cases hlast : lastWrite (index es) path with
        | none => rfl
        | some found =>
          have := hin found.1 found.2 hlast
          simp only [Option.map_some, substr]
          rw [List.drop_append_of_le_length (by omega), List.take_append_of_le_length]
          rw [List.length_drop]
          omega

/-! ## The invariant -/

/-- The archive is open on a file that consists of the entries and `tail`, and knows where. -/
structure Holds (a : TarArchive) (es : List Entry) (tail : Bytes) : Prop where
  bytes : a.file.bytes = image es ++ tail
  ready : a.file.Ready
  names : a.fileNames = es.map Entry.name
  offsets : ∀ path, a.fileOffsets.find? path = (lastWrite (index es) path).map Prod.fst
  sizes : ∀ path, a.fileSizes.find? path = (lastWrite (index es) path).map Prod.snd
  maxPosition : a.maxPosition = (image es).length
  filePosition : a.filePosition = a.file.pos
  writable : a.mode ≠ .read → a.file.out = true
  small : (image es).length < maxOffset

theorem mode_read (a : TarArchive) (path : Bytes) (env : TarEnv) :
    (a.read path env).1.mode = a.mode := by
  unfold TarArchive.read
  split
  · rfl
  · rfl

/-- Reading gives the data of the last entry with the name, and keeps the invariant: only the
position of the stream changes. -/
theorem Holds.read {a : TarArchive} {es : List Entry} {tail : Bytes} (h : Holds a es tail)
    (path : Bytes) (env : TarEnv) :
    (a.read path env).2 = lastWrite (contents es) path ∧ Holds (a.read path env).1 es tail := by
  obtain ⟨hin, hdata⟩ := lastWrite_contents es path
  unfold TarArchive.read
  rw [h.offsets, h.sizes, hdata]
  cases hlast : lastWrite (index es) path with
  | none => exact ⟨rfl, h⟩
  | some found =>
    obtain ⟨off, len⟩ := found
    have hle : off + len ≤ (image es).length := hin off len hlast
    have hsmall : off < maxOffset := lt_of_le_of_lt (by omega) h.small
    have hseek := FStream.seekg_of_lt h.ready hsmall
    have hready : (a.file.seekg off).Ready := by
      rw [hseek]
      exact ⟨h.ready.eof, h.ready.fail, h.ready.isOpen⟩
    have hread := FStream.read_of_le hready (n := len) (by
      rw [hseek]
      simp only [h.bytes, List.length_append]
      omega)
    have hslice : substr (image es ++ tail) off len = substr (image es) off len := by
      rw [substr, substr, List.drop_append_of_le_length (by omega), List.take_append_of_le_length]
      rw [List.length_drop]
      omega
    have hlength : (substr (image es) off len).length = len := by
      rw [substr, List.length_take, List.length_drop]
      omega
    simp only [Option.map_some, Option.getD_some, hread]
    rw [hseek]
    simp only [h.bytes, hslice]
    constructor
    · -- The stream delivers all the characters.
      rw [List.drop_eq_nil_of_le, List.append_nil]
      simp only [List.length_map, List.length_range, hlength, le_refl]
    · exact ⟨rfl, ⟨h.ready.eof, h.ready.fail, h.ready.isOpen⟩, h.names, h.offsets, h.sizes,
        h.maxPosition, rfl, h.writable, h.small⟩

/-! ## Writing -/

theorem add_padLength (n : ℕ) : (n + padLength n) % 512 = 0 := by
  unfold padLength
  omega

/-- A `size_t` holds every position of a stream. -/
theorem lt_sizeBound {n : ℕ} (hn : n < maxOffset) : n < sizeBound := by
  unfold maxOffset at hn
  unfold sizeBound
  omega

theorem mod_sizeBound {n : ℕ} (hn : n < maxOffset) : n % sizeBound = n :=
  Nat.mod_eq_of_lt (lt_sizeBound hn)

/-- Without an overflow, `(n + 511)/512*512` is `n` and its padding. -/
theorem blockCeil_of_lt {n : ℕ} (hn : n < maxOffset) : blockCeil n = n + padLength n := by
  have hmod : (n + 511) % sizeBound = n + 511 := by
    apply Nat.mod_eq_of_lt
    unfold maxOffset at hn
    unfold sizeBound
    omega
  rw [blockCeil, hmod, padLength]
  omega

/-- The message for a path that `writePtr` does not take. -/
def refuses (path : Bytes) : Option Bytes :=
  if 254 < path.length then some (nameTooLong path) else none

/-- The entry that an accepted `writePtr` makes. -/
def recordOf (w : Write) (env : TarEnv) : Entry where
  name := w.path
  header := (TarHeader.ofEntry (splitPath w.path).1 (splitPath w.path).2
    w.contents.length env).toBytes
  data := w.contents
  padding := List.replicate (padLength w.contents.length) 0
  length_header := TarHeader.length_toBytes _
  length_padding := List.length_replicate

/-- The prefix is too long for paths of more than 254 bytes. -/
theorem length_prefix_iff (path : Bytes) : 154 < (splitPath path).1.length ↔ 254 < path.length := by
  unfold splitPath
  split
  · simp only [substr, List.drop_zero, List.length_take]
    omega
  · simp only [List.length_nil]
    omega

/-- At the end of `s`, the three parts of a record are one write. -/
theorem writeRecord_eq {file : FStream} {s t : Bytes} (h : file.Ready) (hout : file.out = true)
    (hbytes : file.bytes = s ++ t) (hpos : file.pos = s.length) (w : Write) (env : TarEnv)
    (hfit : s.length + (recordOf w env).length < maxOffset) :
    writeRecord (recordOf w env).header w.contents file =
      { file with
        bytes := s ++ (recordOf w env).bytes ++ t.drop (recordOf w env).length
        pos := s.length + (recordOf w env).length } := by
  let e := recordOf w env
  change s.length + e.length < maxOffset at hfit
  have hlen : e.length = headerLength + w.contents.length + padLength w.contents.length := rfl
  have hheader : e.header.length = headerLength := e.length_header
  have htwo : (file.write e.header).write w.contents = file.write (e.header ++ w.contents) :=
    FStream.write_write h hout (by omega)
  -- All three parts together.
  have hthree : writeRecord e.header w.contents file = file.write e.bytes := by
    unfold writeRecord
    rw [htwo]
    by_cases hpad : w.contents.length % 512 = 0
    · -- The contents fill their last block.
      have hzero : padLength w.contents.length = 0 := by
        unfold padLength
        omega
      have hnone : e.padding = [] := List.length_eq_zero_iff.mp (e.length_padding.trans hzero)
      have hbytes : e.bytes = e.header ++ w.contents := by
        change e.header ++ w.contents ++ e.padding = _
        rw [hnone, List.append_nil]
      simp only [hpad, ne_eq, not_true_eq_false, if_false, hbytes]
    · -- Zeros are put behind the contents one by one.
      have hcount : 512 - w.contents.length % 512 = padLength w.contents.length := by
        unfold padLength
        omega
      have hdone : (e.header ++ w.contents).length = headerLength + w.contents.length := by
        rw [List.length_append, hheader]
      have hsmall : file.pos + (e.header ++ w.contents).length < maxOffset := by omega
      have hready : (file.write (e.header ++ w.contents)).Ready :=
        h.write hout hsmall
      have hwritten := FStream.write_of_lt h hout hsmall
      rw [if_pos hpad, hcount, FStream.putN_of_lt 0 hready]
      · exact FStream.write_write h hout (by rw [List.length_replicate]; omega)
      · rw [hwritten]
        exact hout
      · rw [hwritten]
        simp only
        omega
      · rw [hwritten]
        simp only [hbytes, hpos, writeAt_append, List.length_append]
        omega
  change writeRecord e.header w.contents file = _
  rw [hthree, FStream.write_of_lt h hout (by rw [e.length_bytes]; omega)]
  simp only [hbytes, hpos, writeAt_append, e.length_bytes, e]

/-- Seeking to the end keeps the invariant. -/
theorem Holds.seekToEnd {a : TarArchive} {es : List Entry} {tail : Bytes} (h : Holds a es tail) :
    Holds a.seekToEnd es tail ∧ a.seekToEnd.file.pos = (image es).length ∧
      a.seekToEnd.mode = a.mode := by
  unfold TarArchive.seekToEnd
  split
  · have hsmall : a.maxPosition < maxOffset := by
      rw [h.maxPosition]
      exact h.small
    rw [FStream.seekp_of_lt h.ready hsmall]
    exact ⟨⟨h.bytes, ⟨h.ready.eof, h.ready.fail, h.ready.isOpen⟩, h.names, h.offsets, h.sizes,
      h.maxPosition, rfl, h.writable, h.small⟩, h.maxPosition, rfl⟩
  · next hne =>
    have heq : a.filePosition = a.maxPosition := not_not.mp hne
    exact ⟨h, by rw [← h.filePosition, heq, h.maxPosition], rfl⟩

/-- A refused write throws, and only the position of the stream changes. -/
theorem Holds.writePtr_refused {a : TarArchive} {es : List Entry} {tail : Bytes}
    (h : Holds a es tail) (hmode : a.mode ≠ .read) {w : Write} (env : TarEnv) {message : Bytes}
    (hrefused : refuses w.path = some message) :
    (a.writePtr w env).2 = .threw message ∧ Holds (a.writePtr w env).1 es tail ∧
      (a.writePtr w env).1.mode = a.mode := by
  obtain ⟨hend, -, hendmode⟩ := h.seekToEnd
  unfold refuses at hrefused
  split at hrefused
  · next hlong =>
    have hprefix := (length_prefix_iff w.path).mpr hlong
    cases hrefused
    unfold TarArchive.writePtr
    simp only [hmode, hprefix, if_true, if_false]
    exact ⟨trivial, hend, hendmode⟩
  · cases hrefused

/-- An accepted write puts its record behind the entries. -/
theorem Holds.writePtr_accepted {a : TarArchive} {es : List Entry} {tail : Bytes}
    (h : Holds a es tail) (hmode : a.mode ≠ .read) {w : Write} (env : TarEnv)
    (haccepted : refuses w.path = none)
    (hfit : (image es).length + (recordOf w env).length < maxOffset) :
    (a.writePtr w env).2 = .done ∧
      Holds (a.writePtr w env).1 (es ++ [recordOf w env]) (tail.drop (recordOf w env).length) ∧
      (a.writePtr w env).1.mode = a.mode := by
  obtain ⟨hend, hpos, hendmode⟩ := h.seekToEnd
  have hshort : ¬ 154 < (splitPath w.path).1.length := by
    rw [length_prefix_iff]
    intro hlong
    rw [refuses, if_pos hlong] at haccepted
    cases haccepted
  have hout : a.seekToEnd.file.out = true := hend.writable (by rw [hendmode]; exact hmode)
  have hwritten := writeRecord_eq hend.ready hout hend.bytes hpos w env hfit
  have hlength : (recordOf w env).length =
      headerLength + w.contents.length + padLength w.contents.length := rfl
  -- None of the sums overflows.
  have hceil : blockCeil w.contents.length = w.contents.length + padLength w.contents.length :=
    blockCeil_of_lt (by omega)
  have hdelta : (headerLength + blockCeil w.contents.length) % sizeBound =
      (recordOf w env).length := by
    rw [hceil, mod_sizeBound (by omega)]
    omega
  have hoffset : (a.seekToEnd.maxPosition + headerLength) % sizeBound =
      (image es).length + headerLength := by
    rw [hend.maxPosition, mod_sizeBound (by omega)]
  have hheader : (TarHeader.ofEntry (splitPath w.path).1 (splitPath w.path).2
      w.contents.length env).toBytes = (recordOf w env).header := rfl
  unfold TarArchive.writePtr
  simp only [hmode, hshort, if_false, FStream.flush, ite_self, hdelta, hoffset, hheader, hwritten]
  have himage : image (es ++ [recordOf w env]) = image es ++ (recordOf w env).bytes := by
    rw [image_append, image_singleton]
  have hindex (path : Bytes) : lastWrite (index (es ++ [recordOf w env])) path =
      if path = w.path then some ((image es).length + headerLength, w.contents.length)
      else lastWrite (index es) path := by
    rw [index_concat, lastWrite_concat]
    rfl
  have himageLength : (image (es ++ [recordOf w env])).length =
      (image es).length + (recordOf w env).length := by
    rw [himage, List.length_append, Entry.length_bytes]
  refine ⟨trivial, ⟨?_, ?_, ?_, ?_, ?_, ?_, ?_, fun _ => hout, ?_⟩, hendmode⟩
  · exact congrArg (· ++ tail.drop (recordOf w env).length) himage.symm
  · exact ⟨hend.ready.eof, hend.ready.fail, hend.ready.isOpen⟩
  · simp only [hend.names, List.map_append, List.map_singleton]
    rfl
  · intro path
    simp only [StdMap.find?_insert, hend.offsets, hindex]
    split
    · rfl
    · rfl
  · intro path
    simp only [StdMap.find?_insert, hend.sizes, hindex]
    split
    · rfl
    · rfl
  · rw [himageLength, hend.maxPosition]
  · simp only [hend.filePosition, hpos]
  · rw [himageLength]
    exact hfit

end TarArchive

end Libgetar
