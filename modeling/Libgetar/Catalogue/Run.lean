import Libgetar.Catalogue.Gtar
import Libgetar.Record.Paths

/-!
# The catalogue over a run

What the catalogue holds is determined by the paths that have gone through `insertRecord`, in their
order (`Lists`). One insertion adds one path (`Lists.insertRecord`), so the constructor lists the
names that it is given, and a run adds the paths of the writes that have returned normally
(`Lists.run`).

A pair of a record type and one of its frames is a parsed path, cut in two. Parsed records are
canonical, so their paths are different, and the paths of all pairs are what was listed, printed
again (`Lists.bijOn`). With the path identity these are the listed paths without their leading
separators.
-/

namespace Libgetar

open Lib

namespace Gtar

variable {σ ε : Type*}

/-- The indices that the paths have under a record, in order. -/
def indicesOf (paths : List Bytes) (r : Record) : List Bytes :=
  (paths.filter fun p => (Record.ofPath p).withNullifiedIndex = r).map fun p => (Record.ofPath p).index

/-- The catalogue lists the paths. -/
structure Lists (g : Gtar σ) (paths : List Bytes) : Prop where
  types : ∀ r, r ∈ g.records.keys ↔ ∃ p ∈ paths, (Record.ofPath p).withNullifiedIndex = r
  frames : ∀ r i, i ∈ StdSet.toList ((g.records.find? r).getD .empty) ↔
    ∃ p ∈ paths, (Record.ofPath p).withNullifiedIndex = r ∧ (Record.ofPath p).index = i
  indexed : ∀ r, (g.indexedRecords.find? r).getD [] = indicesOf paths r

variable {g : Gtar σ} {paths : List Bytes}

/-- The catalogue does not depend on the archive. -/
theorem Lists.setArchive (h : Lists g paths) (archive : Option σ) :
    Lists { g with archive := archive } paths := ⟨h.types, h.frames, h.indexed⟩

theorem lists_empty (archive : Option σ) : Lists ⟨archive, .empty, .empty⟩ [] := by
  refine ⟨fun r => ?_, fun r i => ?_, fun r => rfl⟩
  · simp
  · simp [StdSet.toList]

/-- One more path. -/
theorem Lists.insertRecord (h : Lists g paths) (path : Bytes) :
    Lists (g.insertRecord path) (paths ++ [path]) := by
  set rec' := (Record.ofPath path).withNullifiedIndex with hrec
  have hrecords (r : Record) : (g.insertRecord path).records.find? r =
      if r = rec' then some (StdSet.insert ((g.records.find? rec').getD .empty) (Record.ofPath path).index)
      else g.records.find? r := StdMap.find?_upsert _ _ _ _
  have hindexed (r : Record) : (g.insertRecord path).indexedRecords.find? r =
      if r = rec' then some ((g.indexedRecords.find? rec').getD [] ++ [(Record.ofPath path).index])
      else g.indexedRecords.find? r := StdMap.find?_upsert _ _ _ _
  refine ⟨fun r => ?_, fun r i => ?_, fun r => ?_⟩
  · have hkeys : r ∈ (g.insertRecord path).records.keys ↔ r = rec' ∨ r ∈ g.records.keys :=
      StdMap.mem_keys_upsert
    rw [hkeys, h.types]
    simp only [List.mem_append, List.mem_singleton, or_and_right, exists_or, exists_eq_left, ← hrec]
    rw [or_comm, eq_comm]
  · rw [hrecords]
    simp only [List.mem_append, List.mem_singleton, or_and_right, exists_or, exists_eq_left, ← hrec]
    rw [← h.frames]
    by_cases hr : r = rec'
    · rw [if_pos hr, Option.getD_some, StdSet.mem_toList_insert, hr, or_comm, eq_comm]
      simp only [true_and]
    · rw [if_neg hr]
      simp only [Ne.symm hr, false_and, or_false]
  · rw [hindexed, indicesOf, List.filter_append, List.map_append, ← indicesOf]
    by_cases hr : r = rec'
    · rw [if_pos hr, Option.getD_some, h.indexed, hr]
      simp [← hrec]
    · rw [if_neg hr, h.indexed]
      simp [← hrec, Ne.symm hr]

/-- The frames of a record are filed under it without its index. -/
theorem Lists.mem_queryFrames (h : Lists g paths) (t : Record) (i : Bytes) :
    i ∈ g.queryFrames t ↔
      ∃ p ∈ paths, (Record.ofPath p).withNullifiedIndex = t.withNullifiedIndex ∧
        (Record.ofPath p).index = i := by
  rw [← h.frames]
  unfold queryFrames
  cases g.records.find? t.withNullifiedIndex with
  | none => simp [StdSet.toList]
  | some indices => rfl

/-! ## Pairs -/

/-- The record types with their frames. -/
def pairs (g : Gtar σ) : Set (Record × Bytes) :=
  { x | x.1 ∈ g.getRecordTypes ∧ x.2 ∈ g.queryFrames x.1 }

/-- The path of a pair. -/
def pairPath (x : Record × Bytes) : Bytes := (x.1.setIndex x.2).getPath

/-- A parsed path is a pair. -/
theorem setIndex_withNullifiedIndex (r : Record) : r.withNullifiedIndex.setIndex r.index = r := rfl

/-- The pairs are the listed paths, parsed and cut in two. -/
theorem Lists.mem_pairs (h : Lists g paths) (x : Record × Bytes) :
    x ∈ g.pairs ↔ ∃ p ∈ paths, x = ((Record.ofPath p).withNullifiedIndex, (Record.ofPath p).index) := by
  constructor
  · rintro ⟨htype, hframe⟩
    obtain ⟨q, -, hq⟩ := (h.types x.1).mp htype
    obtain ⟨p, hp, hrecord, hindex⟩ := (h.mem_queryFrames x.1 x.2).mp hframe
    -- A type has no index.
    have hnull : x.1.withNullifiedIndex = x.1 := by rw [← hq]; rfl
    rw [hnull] at hrecord
    exact ⟨p, hp, Prod.ext hrecord.symm hindex.symm⟩
  · rintro ⟨p, hp, rfl⟩
    exact ⟨(h.types _).mpr ⟨p, hp, rfl⟩, (h.mem_queryFrames _ _).mpr ⟨p, hp, rfl, rfl⟩⟩

/-- The paths of the pairs are different, and they are the listed paths, parsed and printed. -/
theorem Lists.bijOn (h : Lists g paths) :
    Set.BijOn pairPath g.pairs { q | ∃ p ∈ paths, q = (Record.ofPath p).getPath } := by
  refine ⟨?_, ?_, ?_⟩
  · intro x hx
    obtain ⟨p, hp, rfl⟩ := (h.mem_pairs x).mp hx
    exact ⟨p, hp, rfl⟩
  · intro x hx y hy hpath
    obtain ⟨p, -, rfl⟩ := (h.mem_pairs x).mp hx
    obtain ⟨q, -, rfl⟩ := (h.mem_pairs y).mp hy
    have hsame : Record.ofPath p = Record.ofPath q :=
      Record.getPath_injective (Record.ofPath_canonical p) (Record.ofPath_canonical q) hpath
    rw [hsame]
  · rintro q ⟨p, hp, rfl⟩
    exact ⟨_, (h.mem_pairs _).mpr ⟨p, hp, rfl⟩, rfl⟩

/-! ## Runs -/

/-- A list of insertions. -/
theorem Lists.insertRecords (h : Lists g paths) (paths' : List Bytes) :
    Lists (paths'.foldl Gtar.insertRecord g) (paths ++ paths') := by
  induction paths' generalizing g paths with
  | nil =>
    rw [List.append_nil]
    exact h
  | cons path rest ih =>
    have hrest := ih (h.insertRecord path)
    rw [List.append_assoc] at hrest
    exact hrest

/-- The names that the constructor passes: `size` is an `unsigned int`. -/
def openedNames (names : List Bytes) : List Bytes := names.take (names.length % 2 ^ 32)

/-- The backend has the names, and counts them in an `unsigned int`. -/
structure Names (B : Backend σ ε) (archive : σ) (names : List Bytes) : Prop where
  size : B.size archive = names.length % 2 ^ 32
  getItemName : ∀ i (h : i < names.length), B.getItemName archive i = names.get ⟨i, h⟩

/-- The constructor lists the names. -/
theorem lists_ofArchive {B : Backend σ ε} {archive : σ} {names : List Bytes}
    (h : Names B archive names) : Lists (ofArchive B archive) (openedNames names) := by
  have hle : names.length % 2 ^ 32 ≤ names.length := Nat.mod_le _ _
  have hnames : openedNames names =
      (List.range (B.size archive)).map fun i => B.getItemName archive i := by
    rw [openedNames, h.size]
    refine List.ext_getElem ?_ fun i hi hi' => ?_
    · rw [List.length_take, List.length_map, List.length_range, Nat.min_eq_left hle]
    have hlt : i < names.length := by
      rw [List.length_take] at hi
      omega
    rw [List.getElem_take, List.getElem_map, List.getElem_range, h.getItemName i hlt]
    rfl
  have hall := (lists_empty (some archive)).insertRecords (openedNames names)
  rw [List.nil_append] at hall
  rw [ofArchive, ← List.foldl_map (f := fun i => B.getItemName archive i)
    (g := fun g path => insertRecord g path), ← hnames]
  exact hall

/-- What a call has written, if it is a write and returns normally. -/
def written? (B : Backend σ ε) (g : Gtar σ) (c : GtarOp × ε) : Option (Bytes × Bytes) :=
  match c.1 with
  | .write _ path contents _ _ => if (step B g c).2 = .done then some (path, contents) else none
  | _ => none

/-- What the calls have written, the oldest first. -/
def written (B : Backend σ ε) : Gtar σ → List (GtarOp × ε) → Store
  | _, [] => []
  | g, c :: calls => (written? B g c).toList ++ written B (step B g c).1 calls

/-- Every way to write is `write`. -/
theorem step_write (B : Backend σ ε) (g : Gtar σ) (kind : WriteKind) (path contents : Bytes)
    (mode : CompressMode) (immediate : Bool) (env : ε) : ∃ function,
      step B g (.write kind path contents mode immediate, env) =
        g.write function B ⟨path, contents, mode, immediate⟩ env := by
  cases kind
  · exact ⟨_, rfl⟩
  · exact ⟨_, rfl⟩
  · exact ⟨_, rfl⟩

/-- A write that returns normally is listed, and nothing else is. -/
theorem Lists.step (h : Lists g paths) (B : Backend σ ε) (c : GtarOp × ε) :
    Lists (Gtar.step B g c).1 (paths ++ (written? B g c).toList.map Prod.fst) := by
  obtain ⟨op, env⟩ := c
  have hsame : ∀ archive : Option σ, Lists { g with archive := archive } (paths ++ []) := by
    intro archive
    rw [List.append_nil]
    exact h.setArchive archive
  cases op with
  | close => exact hsame none
  | beginBulkWrites =>
    simp only [Gtar.step, beginBulkWrites, written?]
    split
    · exact (List.append_nil paths).symm ▸ h
    · exact hsame _
  | endBulkWrites =>
    simp only [Gtar.step, endBulkWrites, written?]
    split
    · exact (List.append_nil paths).symm ▸ h
    · exact hsame _
  | readBytes path =>
    simp only [Gtar.step, readBytes, written?]
    split
    · exact (List.append_nil paths).symm ▸ h
    · exact hsame _
  | write kind path contents mode immediate =>
    obtain ⟨function, hstep⟩ := step_write B g kind path contents mode immediate env
    simp only [written?, hstep, Gtar.write]
    cases harchive : g.archive with
    | none =>
      simp only [reduceCtorEq, if_false, Option.toList_none, List.map_nil]
      exact (List.append_nil paths).symm ▸ h
    | some archive =>
      by_cases hdone : (B.writePtr archive ⟨path, contents, mode, immediate⟩ env).2 = .done
      · simp only [hdone, if_true, Option.toList_some, List.map_cons, List.map_nil]
        exact (h.setArchive _).insertRecord path
      · simp only [hdone, if_false, Option.toList_none, List.map_nil]
        exact hsame _

/-- A run lists what it has written. -/
theorem Lists.run (B : Backend σ ε) (calls : List (GtarOp × ε)) : ∀ {g : Gtar σ} {paths : List Bytes},
    Lists g paths →
      Lists (exec (Gtar.step B) g calls) (paths ++ (written B g calls).map Prod.fst) := by
  induction calls with
  | nil =>
    intro g paths h
    rw [written, List.map_nil, List.append_nil]
    exact h
  | cons c calls ih =>
    intro g paths h
    have hrest := ih (h.step B c)
    rw [List.append_assoc, ← List.map_append] at hrest
    exact hrest

/-! ## The catalogue is complete -/

/-- An index is under a record when a path has both. -/
theorem mem_indicesOf {paths : List Bytes} {r : Record} {i : Bytes} :
    i ∈ indicesOf paths r ↔
      ∃ p ∈ paths, (Record.ofPath p).withNullifiedIndex = r ∧ (Record.ofPath p).index = i := by
  simp only [indicesOf, List.mem_map, List.mem_filter, decide_eq_true_eq, and_assoc]

/-- The pairs are exactly the listed paths without their leading separators when the segments of
each fit. -/
theorem Lists.bijOn_iff (h : Lists g paths) :
    Set.BijOn pairPath g.pairs { q | ∃ p ∈ paths, q = p.dropWhile (· == slash) } ↔
      ∀ p ∈ paths, Record.SegmentsFit p := by
  rw [← Record.printed_eq_iff]
  constructor
  · intro hbij
    exact h.bijOn.image_eq.symm.trans hbij.image_eq
  · intro heq
    rw [← heq]
    exact h.bijOn

/-- A file with less than `2^32` names is listed in full. -/
theorem openedNames_of_lt {names : List Bytes} (h : names.length < 2 ^ 32) :
    openedNames names = names := by
  rw [openedNames, Nat.mod_eq_of_lt h, List.take_length]

/-- After every run, the record types are in strict order and have no index; the indices of each are
those that were inserted, in this order, and `queryFrames` finds them for every record of the type;
and the pairs of both are exactly the paths that the file had and that the run has written, without
their leading separators, when the segments of each fit. -/
theorem catalogue_complete_iff {B : Backend σ ε} {archive : σ} {names : List Bytes}
    (h : Names B archive names) (calls : List (GtarOp × ε)) :
    let g := exec (step B) (ofArchive B archive) calls
    let paths := (written B (ofArchive B archive) calls).map Prod.fst
    (g.getRecordTypes.Pairwise (fun a b => a.lt b = true) ∧ ∀ r ∈ g.getRecordTypes, r.index = []) ∧
    (names.length < 2 ^ 32 →
      (Set.BijOn pairPath g.pairs { q | ∃ p ∈ names ++ paths, q = p.dropWhile (· == slash) } ↔
        ∀ p ∈ names ++ paths, Record.SegmentsFit p)) ∧
    ∀ t : Record,
      (g.indexedRecords.find? t.withNullifiedIndex).getD [] =
        indicesOf (openedNames names ++ paths) t.withNullifiedIndex ∧
      (∀ i, i ∈ g.queryFrames t ↔
        i ∈ (g.indexedRecords.find? t.withNullifiedIndex).getD []) ∧
      ∀ t' : Record, t'.withNullifiedIndex = t.withNullifiedIndex →
        g.queryFrames t' = g.queryFrames t := by
  intro g paths
  have hlists : Lists g (openedNames names ++ paths) := (lists_ofArchive h).run B calls
  refine ⟨⟨StdMap.keys_sorted g.records, fun r hr => ?_⟩, fun hlt => ?_, fun t => ⟨?_, fun i => ?_, ?_⟩⟩
  · obtain ⟨p, -, hp⟩ := (hlists.types r).mp hr
    rw [← hp]
    rfl
  · rw [openedNames_of_lt hlt] at hlists
    exact hlists.bijOn_iff
  · exact hlists.indexed _
  · rw [hlists.mem_queryFrames, hlists.indexed, mem_indicesOf]
  · intro t' heq
    unfold queryFrames
    rw [heq]

/-- A store lists its writes. -/
theorem names_storeBackend (refuses : Bytes → Option Bytes) (log : Store) :
    Names (storeBackend refuses) log (log.map Prod.fst) where
  size := by rw [List.length_map]; rfl
  getItemName i h := by
    rw [List.get_eq_getElem, ← List.getD_eq_getElem]
    rfl

/-- Two names, and a path that is written in two spellings. -/
theorem catalogue_complete_store :
    Set.BijOn pairPath
      (exec (step (storeBackend fun _ => none))
        (ofArchive (storeBackend fun _ => none) [(lit "a", []), (lit "frames/1/b", [])])
        [(.write .ptr (lit "frames/10/b") [1] .noCompress false, ()),
          (.write .ptr (lit "//frames/10/b") [2] .noCompress true, ())]).pairs
      { q | ∃ p ∈ [lit "a", lit "frames/1/b", lit "frames/10/b", lit "//frames/10/b"],
        q = p.dropWhile (· == slash) } := by
  obtain ⟨-, hbij, -⟩ := catalogue_complete_iff
    (names_storeBackend (fun _ => none) [(lit "a", []), (lit "frames/1/b", [])])
    [(.write .ptr (lit "frames/10/b") [1] .noCompress false, ()),
      (.write .ptr (lit "//frames/10/b") [2] .noCompress true, ())]
  have hpaths : (written (storeBackend fun _ => none)
      (ofArchive (storeBackend fun _ => none) [(lit "a", []), (lit "frames/1/b", [])])
      [(.write .ptr (lit "frames/10/b") [1] .noCompress false, ()),
        (.write .ptr (lit "//frames/10/b") [2] .noCompress true, ())]).map Prod.fst =
      [lit "frames/10/b", lit "//frames/10/b"] := by decide +kernel
  rw [hpaths] at hbij
  refine (hbij (by decide)).mpr fun p hp => Record.segmentsFit_of_length_lt ?_
  have hshort : ∀ p ∈ [lit "a", lit "frames/1/b", lit "frames/10/b", lit "//frames/10/b"],
      p.length < 100 := by decide
  have hlength := hshort p hp
  unfold Record.segmentBound Record.intBound
  omega

/-- A written path with `2^31 + 3` segments is listed as another one. -/
theorem catalogue_complete_counterexample :
    ¬Set.BijOn pairPath
      (exec (step (storeBackend fun _ => none)) (ofArchive (storeBackend fun _ => none) [])
        [(.write .ptr (97 :: List.replicate (2 ^ 31 + 2) slash) [] .noCompress true, ())]).pairs
      { q | ∃ p ∈ [97 :: List.replicate (2 ^ 31 + 2) slash], q = p.dropWhile (· == slash) } := by
  have hlists (path : Bytes) : Lists
      (exec (step (storeBackend fun _ => none)) (ofArchive (storeBackend fun _ => none) [])
        [(.write .ptr path [] .noCompress true, ())]) [path] :=
    (lists_empty (some [(path, [])])).insertRecord path
  rw [(hlists _).bijOn_iff]
  intro hfit
  exact Record.not_segmentsFit_replicate (by decide) (by unfold Record.segmentBound Record.intBound; omega)
    (hfit _ List.mem_cons_self)

end Gtar

end Libgetar
