import Libgetar.Lib.Machine
import Libgetar.Python.Copies

/-!
# What is written is read back

`writePath` makes bytes of a Python object as the record of the path says, and `readPath` makes an
object of the bytes under the same record. The bytes are those of the last `writePath` for the
record, whatever came behind it for other ones. But not every object comes back as it was
(`readPath_writePath_iff`): byte strings that are UTF-8 come back as strings, arrays with the dtype and
the columns of the record, and an array in `uint8` with a dtype that `writePath` parses, so that it is
another array unless it is empty. The archive is one that takes every path.
-/

namespace Libgetar

open Lib

/-- What `writeRecord` makes of an object. -/
def serialize (convert : Conversion) (r : Record) (contents : Contents) : Except PyError Bytes :=
  if r.resolution = .text then
    match contents with
    | .str s => .ok s
    | .bytes s => .ok s
    | .array _ => .error (.runtimeError (lit "Not sure how to serialize the given argument!"))
  else ascontiguousarray convert contents r.format

/-- What `getRecord` makes of bytes. -/
def deserialize (r : Record) (contents : Bytes) : Except PyError Contents :=
  if r.resolution ≠ .text then (arrayRecord contents r).map .array
  else if IsUtf8 contents then .ok (.str contents) else .ok (.bytes contents)

/-- An object comes back as it was. -/
def ComesBack (r : Record) : Contents → Prop
  | .str s => r.resolution = .text ∧ IsUtf8 s
  | .bytes s => r.resolution = .text ∧ ¬IsUtf8 s
  | .array a => r.resolution ≠ .text ∧ a.dtype = formats r.format ∧ a.columns = widths.get? r.name ∧
      (∀ width ∈ widths.get? r.name, a.size % width = 0) ∧ (r.format = .uint8 → a.data = [])

/-- `writePath` as a step. -/
def writeStep (convert : Conversion) (out : Gtar Store) (c : Bytes × Contents) :
    Gtar Store × Option PyError :=
  MapArchive.writePath convert out c.1 c.2

section

variable (convert : Conversion) {g : Gtar Store} {kept : Store} {r : Record} (contents : Contents)

/-! ## Writing -/

/-- A record with a path that is UTF-8 is written as what it is serialized to. -/
theorem writeRecord_of_isUtf8 (hopen : g.archive = some kept) (hpath : IsUtf8 r.getPath) :
    (∃ data, serialize convert r contents = .ok data ∧ (MapArchive.writeRecord convert g r contents).2 = none ∧
        (MapArchive.writeRecord convert g r contents).1.archive = some (kept ++ [(r.getPath, data)])) ∨
      ∃ e, serialize convert r contents = .error e ∧
        MapArchive.writeRecord convert g r contents = (g, some e) := by
  have hdecode : unpy3str r.getPath = .ok r.getPath := if_pos hpath
  -- What is written is recorded.
  have hrecorded (function data : Bytes) :
      let result := raised (g.write function mapBackend ⟨r.getPath, data, .fastCompress, true⟩ ())
      result.2 = none ∧ result.1.archive = some (kept ++ [(r.getPath, data)]) := by
    obtain ⟨harchive, hnone⟩ :=
      records_raised_write mapBackend (fun _ => ()) hopen function r.getPath data
    exact ⟨hnone.mpr rfl, harchive⟩
  unfold serialize MapArchive.writeRecord writeRecord
  by_cases htext : r.resolution = .text
  · simp only [if_pos htext, hdecode]
    cases contents with
    | str s => exact Or.inl ⟨s, rfl, hrecorded _ _⟩
    | bytes s => exact Or.inl ⟨s, rfl, hrecorded _ _⟩
    | array a => exact Or.inr ⟨_, rfl, rfl⟩
  · simp only [if_neg htext, hdecode, writeArray]
    cases ascontiguousarray convert contents r.format with
    | ok data => exact Or.inl ⟨data, rfl, hrecorded _ _⟩
    | error e => exact Or.inr ⟨e, rfl, rfl⟩

/-- A write adds one entry for its record, or none. -/
theorem archive_writeStep (hopen : g.archive = some kept) (c : Bytes × Contents) :
    ∃ more, (writeStep convert g c).1.archive = some (kept ++ more) ∧
      ∀ e ∈ more, e.1 = (Record.ofPath c.1).getPath := by
  have hsame (h : ∃ e, writeStep convert g c = (g, some e)) :
      ∃ more, (writeStep convert g c).1.archive = some (kept ++ more) ∧
        ∀ e ∈ more, e.1 = (Record.ofPath c.1).getPath := by
    obtain ⟨e, he⟩ := h
    refine ⟨[], ?_, List.forall_mem_nil _⟩
    rw [he, List.append_nil]
    exact hopen
  by_cases hpath : IsUtf8 (Record.ofPath c.1).getPath
  · obtain ⟨data, -, -, hkept⟩ | ⟨e, -, he⟩ :=
      writeRecord_of_isUtf8 convert c.2 hopen hpath
    · exact ⟨_, hkept, List.forall_mem_singleton.mpr rfl⟩
    · exact hsame ⟨e, he⟩
  · exact hsame (writeRecord_of_not_isUtf8 mapBackend _ convert g hpath c.2)

/-- Several writes add entries for their records. -/
theorem archive_exec_writeStep (calls : List (Bytes × Contents)) : ∀ {g : Gtar Store} {kept : Store},
    g.archive = some kept → ∃ more, (exec (writeStep convert) g calls).archive = some (kept ++ more) ∧
      ∀ e ∈ more, ∃ c ∈ calls, e.1 = (Record.ofPath c.1).getPath := by
  induction calls with
  | nil => exact fun {g kept} hopen => ⟨[], by rw [List.append_nil]; exact hopen, List.forall_mem_nil _⟩
  | cons c calls ih =>
    intro g kept hopen
    obtain ⟨first, hfirst, hc⟩ := archive_writeStep convert hopen c
    obtain ⟨rest, hrest, hcalls⟩ := ih hfirst
    refine ⟨first ++ rest, by rw [← List.append_assoc]; exact hrest, fun e he => ?_⟩
    rcases List.mem_append.mp he with he | he
    · exact ⟨c, List.mem_cons_self, hc e he⟩
    · obtain ⟨c', hc', heq⟩ := hcalls e he
      exact ⟨c', List.mem_cons_of_mem _ hc', heq⟩

/-! ## Objects and bytes -/

/-- An array that is made of bytes. -/
theorem arrayRecord_eq_ok_iff {data : Bytes} (hname : IsUtf8 r.name) {a : NdArray} :
    arrayRecord data r = .ok a ↔ a.data = data ∧ a.dtype = formats r.format ∧
      a.columns = widths.get? r.name ∧ ∀ width ∈ widths.get? r.name, a.size % width = 0 := by
  obtain ⟨dtype, data', columns, whole⟩ := a
  by_cases hwhole : data.length % (formats r.format).itemSize = 0
  · rw [arrayRecord_of_whole hname hwhole]
    cases hwidth : widths.get? r.name with
    | none =>
      simp only [Except.ok.injEq, NdArray.mk.injEq, Option.mem_def, reduceCtorEq, false_implies,
        implies_true, and_true]
      constructor
      · rintro ⟨rfl, rfl, rfl⟩
        exact ⟨rfl, rfl, rfl⟩
      · rintro ⟨rfl, rfl, rfl⟩
        exact ⟨rfl, rfl, rfl⟩
    | some width =>
      simp only [NdArray.reshape, Option.mem_def, Option.some.injEq, forall_eq']
      constructor
      · intro h
        split at h
        · next hrows =>
          cases h
          exact ⟨rfl, rfl, rfl, hrows⟩
        · cases h
      · rintro ⟨rfl, rfl, rfl, hrows⟩
        exact if_pos hrows
  · -- An array has whole items.
    have hbuffer : frombuffer data (formats r.format) = .error .valueError := dif_neg hwhole
    unfold arrayRecord
    rw [hbuffer]
    refine iff_of_false nofun ?_
    rintro ⟨rfl, rfl, -⟩
    exact hwhole whole

/-- An array of the dtype of the record is written as it is, or parsed. -/
theorem ascontiguousarray_eq_data_iff {a : NdArray} {format : Format} (h : a.dtype = formats format) :
    ascontiguousarray convert (.array a) format = .ok a.data ↔ (format = .uint8 → a.data = []) := by
  rw [ascontiguousarray_formats convert h, mapM_parseItem]
  by_cases hformat : format = .uint8
  · rw [if_pos hformat, forall_prop_of_true hformat]
    constructor
    · intro hparsed
      split at hparsed
      · exact Cat.map_sub_eq_self_iff.mp (Except.ok.inj hparsed)
      · cases hparsed
    · intro hempty
      rw [hempty]
      exact if_pos (List.forall_mem_nil _)
  · rw [if_neg hformat]
    exact iff_of_true rfl fun hformat' => absurd hformat' hformat

/-- The bytes that an object is serialized to are those that it is made of, if it comes back. -/
theorem comesBack_iff (hname : IsUtf8 r.name) :
    (∃ data, serialize convert r contents = .ok data ∧ deserialize r data = .ok contents) ↔
      ComesBack r contents := by
  unfold serialize deserialize
  by_cases htext : r.resolution = .text
  · cases contents with
    | str s => simp [ComesBack, htext]
    | bytes s => simp [ComesBack, htext]
    | array a => simp [ComesBack, htext]
  · simp only [if_neg htext, ne_eq, if_pos htext, map_eq_ok_iff, arrayRecord_eq_ok_iff hname]
    cases contents with
    | str s => simp [ComesBack, htext]
    | bytes s => simp [ComesBack, htext]
    | array a =>
      simp only [Contents.array.injEq]
      constructor
      · rintro ⟨data, hdata, a', ⟨rfl, hdtype, hcolumns, hrows⟩, rfl⟩
        exact ⟨htext, hdtype, hcolumns, hrows, (ascontiguousarray_eq_data_iff convert hdtype).mp hdata⟩
      · rintro ⟨-, hdtype, hcolumns, hrows, hempty⟩
        have hdata := (ascontiguousarray_eq_data_iff convert hdtype).mpr hempty
        exact ⟨a.data, hdata, a, ⟨rfl, hdtype, hcolumns, hrows⟩, rfl⟩

/-! ## Reading what was written -/

/-- What is written under a path is read as the same object, whatever is written for other records in
between, exactly if the path of its record is UTF-8 and the object is one that comes back. -/
theorem readPath_writePath_iff (hopen : g.archive = some kept) (path : Bytes)
    {later : List (Bytes × Contents)}
    (hlater : ∀ c ∈ later, (Record.ofPath c.1).getPath ≠ (Record.ofPath path).getPath) :
    ((MapArchive.writePath convert g path contents).2 = none ∧
        MapArchive.readPath
          (exec (writeStep convert) (MapArchive.writePath convert g path contents).1 later) path =
          .ok contents) ↔
      IsUtf8 (Record.ofPath path).getPath ∧ ComesBack (Record.ofPath path) contents := by
  by_cases hpath : IsUtf8 (Record.ofPath path).getPath
  · rw [and_iff_right hpath, ← comesBack_iff convert contents
      ((Record.ofPath path).isUtf8_getPath.mp hpath).2.2]
    have hindex := (Record.isUtf8_of_getPath (Record.ofPath_canonical path) hpath).1
    obtain ⟨data, hdata, hnone, hkept⟩ | ⟨e, he, hraised⟩ :=
      writeRecord_of_isUtf8 convert contents hopen hpath
    · -- The entry of this write is the last one under its path.
      obtain ⟨more, hmore, hpaths⟩ := archive_exec_writeStep convert later hkept
      have hlast : lastWrite (kept ++ [((Record.ofPath path).getPath, data)] ++ more)
          (Record.ofPath path).getPath = some data := by
        rw [List.append_assoc]
        refine lastWrite_append_cons kept data fun hmem => ?_
        obtain ⟨e, he, heq⟩ := List.mem_map.mp hmem
        obtain ⟨c, hc, hprinted⟩ := hpaths e he
        exact hlater c hc (hprinted.symm.trans heq)
      have hread := ((MapArchive.serves hmore).readPath hindex).2
      rw [hlast, contentsOfAnswer_array, Option.getD_some] at hread
      unfold MapArchive.writePath MapArchive.readPath writePath
      unfold MapArchive.writeRecord at hnone hread
      rw [and_iff_right hnone, hread]
      simp only [hdata, Except.ok.injEq, exists_eq_left']
      rfl
    · -- The write raises.
      have hwrite : MapArchive.writePath convert g path contents = (g, some e) := hraised
      rw [hwrite, he]
      simp
  · obtain ⟨e, he⟩ := writeRecord_of_not_isUtf8 mapBackend (fun _ => ()) convert g hpath contents
    have hwrite : MapArchive.writePath convert g path contents = (g, some e) := he
    rw [hwrite]
    simp [hpath]

/-- Two particles, and a note behind them. -/
theorem positions_read_back :
    MapArchive.readPath (exec (writeStep fun _ _ => .error .valueError)
      (MapArchive.writePath (fun _ _ => .error .valueError) (Gtar.ofArchive mapBackend [])
        (lit "frames/1/position.f32.ind")
        (.array ⟨.number .float32, List.replicate 24 7, some 3, by decide⟩)).1
      [(lit "notes.txt", .str (lit "text"))]) (lit "frames/1/position.f32.ind") =
    .ok (.array ⟨.number .float32, List.replicate 24 7, some 3, by decide⟩) := by
  refine ((readPath_writePath_iff (fun _ _ => .error .valueError) _ rfl _ ?_).mpr ⟨?_, ?_⟩).2
  · exact List.forall_mem_singleton.mpr (by decide +kernel)
  · decide +kernel
  · refine ⟨?_, ?_, ?_, ?_, ?_⟩ <;> decide +kernel

end

end Libgetar
