import Libgetar.Catalogue.Frames
import Libgetar.Python.Cat

/-!
# Frames by the name of a record

`framesWithRecordsNamed` of `src/gtar/_gtar.pyx` looks every name up in a dictionary from names to
record types, in which the last type of a name remains, and returns the chosen records with the
frames that all of them have, sorted by `_sortFrameKey`: fewer characters come first, and as many are
compared as strings.

`queryFrames` of the library counts bytes instead. UTF-8 keeps the order of strings
(`codePoints_lt_iff`), but not the one of their lengths, so a single record's frames come in the
order of the library exactly when no two of them are counted differently (`SameOrder`).

A Python set is the list of its elements. Their keys are different, so what order the elements of a
set come in does not matter to a sort (`sortFrames_perm`).
-/

namespace Libgetar

open Lib

/-- The argument `names`: a string, or something else to iterate over. -/
inductive Names where
  | str (name : Bytes)
  | list (names : List Bytes)

/-- `names` after the test of its type. -/
def Names.toList : Names → List Bytes
  | .str name => [name]
  | .list names => names

/-- The records in front of the frames. -/
inductive Found where
  | single (r : Record)
  | list (records : List Record)
deriving DecidableEq

/-! ## The frame order -/

/-- `sorted(frames, key=self._sortFrameKey)`: the key is the number of characters and the string. -/
def sortFrames (frames : List Bytes) : List Bytes := sortBy shortlex codePoints frames

/-- `sorted` cannot iterate over `None`. -/
def sortedFrames (frames : Option (List Bytes)) : Except PyError (List Bytes) :=
  match frames with
  | some frames => .ok (sortFrames frames)
  | none => .error .typeError

/-! ## Choosing records and frames -/

section
variable (g : Gtar Store)

/-- The loop of `getRecordTypes` that copies the types whose group is asked for. -/
def filterTypes (test : Bytes → Bool) : Except PyError (List Record) :=
  g.getRecordTypes.foldlM (fun result rec' => do
    let group ← unpy3str rec'.group
    return if test group then result ++ [rec'] else result) []

/-- `getRecordTypes`. The group overrules its prefix. -/
def getRecordTypes (group groupPrefix : Option Bytes) : Except PyError (List Record) :=
  match group, groupPrefix with
  | some group, _ => filterTypes g fun found => decide (found = group)
  | none, some groupPrefix => filterTypes g fun found => groupPrefix.isPrefixOf found
  | none, none => .ok g.getRecordTypes

/-- `allRecords`. -/
def allRecords (group groupPrefix : Option Bytes) : Except PyError (Dict Bytes Record) := do
  let types ← getRecordTypes g group groupPrefix
  types.foldlM (fun d rec' => do
    let name ← unpy3str rec'.name
    return d.set name rec') .empty

/-- `frames.intersection_update(f)`, or `frames = set(f)` for the first name. -/
def updateFrames (frames : Option (List Bytes)) (f : List Bytes) : List Bytes :=
  match frames with
  | some frames => frames.filter f.contains
  | none => f.dedup

/-- The loop over the names. There is no result when a name is missing. -/
def collectFrames (d : Dict Bytes Record) : List Bytes → List Record → Option (List Bytes) →
    Except PyError (Option (List Record × Option (List Bytes)))
  | [], records, frames => .ok (some (records, frames))
  | n :: names, records, frames =>
    match d.get? n with
    | none => .ok none
    | some rec' => do
      let f ← Cat.queryFrames g rec'
      collectFrames d names (records ++ [rec']) (some (updateFrames frames f))

/-- What is returned behind the loop. -/
def returnFrames (names : List Bytes) :
    Option (List Record × Option (List Bytes)) → Except PyError (Option Found × List Bytes)
  | none => .ok (none, [])
  | some (records, frames) =>
    if names.length > 1 then (sortedFrames frames).map fun sorted => (some (.list records), sorted)
    else
      match records with
      | [] => .error .indexError
      | r :: _ => (sortedFrames frames).map fun sorted => (some (.single r), sorted)

/-- `framesWithRecordsNamed`. -/
def framesWithRecordsNamed (names : Names) (group groupPrefix : Option Bytes) :
    Except PyError (Option Found × List Bytes) := do
  let d ← allRecords g group groupPrefix
  let collected ← collectFrames g d names.toList [] none
  returnFrames names.toList collected

end

/-! ## The chosen records -/

variable {g : Gtar Store} {group groupPrefix : Option Bytes}

/-- The types with the group that is asked for. -/
def selected (g : Gtar Store) (group groupPrefix : Option Bytes) : List Record :=
  match group, groupPrefix with
  | some group, _ => g.getRecordTypes.filter fun r => decide (r.group = group)
  | none, some groupPrefix => g.getRecordTypes.filter fun r => groupPrefix.isPrefixOf r.group
  | none, none => g.getRecordTypes

/-- The record that a name stands for: the last of the types with the name. -/
def chosen (g : Gtar Store) (group groupPrefix : Option Bytes) (n : Bytes) : Option Record :=
  lastWrite ((selected g group groupPrefix).map fun r => (r.name, r)) n

/-- What is looked at in order to choose records is UTF-8: the groups, if one is asked for, and the
names of the types with that group. -/
structure Decodes (g : Gtar Store) (group groupPrefix : Option Bytes) : Prop where
  groups : group ≠ none ∨ groupPrefix ≠ none → ∀ r ∈ g.getRecordTypes, IsUtf8 r.group
  names : ∀ r ∈ selected g group groupPrefix, IsUtf8 r.name

/-- The types that pass a test are copied when all groups are UTF-8. -/
theorem filterTypes_eq_ok_iff {test : Bytes → Bool} {types : List Record} :
    filterTypes g test = .ok types ↔ (∀ r ∈ g.getRecordTypes, IsUtf8 r.group) ∧
      types = g.getRecordTypes.filter fun r => test r.group := by
  have hfilter : g.getRecordTypes.filter (fun r => test r.group) =
      g.getRecordTypes.foldl (fun result r => if test r.group then result ++ [r] else result) [] := by
    generalize g.getRecordTypes = all
    induction all using List.reverseRecOn with
    | nil => rfl
    | append_singleton all r ih =>
      rw [List.filter_append, ih, List.foldl_append, List.foldl_cons, List.foldl_nil]
      by_cases h : test r.group = true
      · rw [if_pos h, List.filter_singleton, h, cond_true]
      · rw [if_neg h, List.filter_singleton, Bool.eq_false_of_not_eq_true h, cond_false,
          List.append_nil]
  rw [hfilter]
  refine foldlM_eq_ok_iff fun r _ result result' => ?_
  apply unpy3str_bind_eq_ok_iff

/-- The types are chosen by their groups. -/
theorem getRecordTypes_eq_ok_iff {types : List Record} :
    getRecordTypes g group groupPrefix = .ok types ↔
      (group ≠ none ∨ groupPrefix ≠ none → ∀ r ∈ g.getRecordTypes, IsUtf8 r.group) ∧
        types = selected g group groupPrefix := by
  unfold getRecordTypes selected
  rcases group with - | group
  · rcases groupPrefix with - | groupPrefix
    · simp [eq_comm]
    · simp [filterTypes_eq_ok_iff]
  · simp [filterTypes_eq_ok_iff]

/-- The dictionary finds the chosen records. -/
theorem allRecords_eq_ok_iff {d : Dict Bytes Record} :
    allRecords g group groupPrefix = .ok d ↔ Decodes g group groupPrefix ∧
      d = Dict.empty.setAll ((selected g group groupPrefix).map fun r => (r.name, r)) := by
  have hloop (types : List Record) : types.foldlM (fun d rec' => do
        let name ← unpy3str rec'.name
        return d.set name rec') (Dict.empty : Dict Bytes Record) = .ok d ↔
      (∀ r ∈ types, IsUtf8 r.name) ∧ d = Dict.empty.setAll (types.map fun r => (r.name, r)) := by
    rw [Dict.setAll, List.foldl_map]
    refine foldlM_eq_ok_iff fun r _ d d' => ?_
    apply unpy3str_bind_eq_ok_iff
  rw [allRecords, bind_eq_ok_iff]
  simp only [getRecordTypes_eq_ok_iff, hloop]
  constructor
  · rintro ⟨types, ⟨hgroups, rfl⟩, hnames, hd⟩
    exact ⟨⟨hgroups, hnames⟩, hd⟩
  · rintro ⟨hdecodes, hd⟩
    exact ⟨_, ⟨hdecodes.groups, rfl⟩, hdecodes.names, hd⟩

/-- A name that is found stands for its chosen record. -/
theorem get?_of_allRecords {d : Dict Bytes Record} (h : allRecords g group groupPrefix = .ok d)
    (n : Bytes) : d.get? n = chosen g group groupPrefix n := by
  rw [(allRecords_eq_ok_iff.mp h).2, Dict.get?_setAll, chosen]

/-! ## The common frames -/

/-- The frames that all the records have too. -/
def common (g : Gtar Store) (frames : List Bytes) (records : List Record) : List Bytes :=
  records.foldl (fun frames r => frames.filter (g.queryFrames r).contains) frames

/-- A frame is common when it is there and all the records have it. -/
theorem mem_common {records : List Record} {i : Bytes} : ∀ {frames : List Bytes},
    i ∈ common g frames records ↔ i ∈ frames ∧ ∀ r ∈ records, i ∈ g.queryFrames r := by
  induction records with
  | nil => simp [common]
  | cons r records ih =>
    intro frames
    rw [common, List.foldl_cons, ← common, ih, List.mem_filter, List.contains_iff_mem,
      List.forall_mem_cons, and_assoc]

/-- No common frame comes twice. -/
theorem nodup_common {records : List Record} : ∀ {frames : List Bytes}, frames.Nodup →
    (common g frames records).Nodup := by
  induction records with
  | nil =>
    intro frames h
    exact h
  | cons r records ih =>
    intro frames h
    exact ih (h.filter _)

/-- The loop over names that are all found, behind the first one. -/
theorem collectFrames_eq_ok_iff {d : Dict Bytes Record} {names : List Bytes} {found : List Record}
    (h : List.Forall₂ (fun n r => d.get? n = some r) names found) :
    ∀ {records : List Record} {frames : List Bytes} {x},
      collectFrames g d names records (some frames) = .ok x ↔
        (∀ r ∈ found, ∀ i ∈ g.queryFrames r, IsUtf8 i) ∧
          x = some (records ++ found, some (common g frames found)) := by
  induction h with
  | nil =>
    intro records frames x
    rw [collectFrames, List.append_nil, and_iff_right (List.forall_mem_nil _), Except.ok.injEq]
    exact eq_comm
  | @cons n r names found hn _ ih =>
    intro records frames x
    rw [collectFrames, hn]
    simp only [bind_eq_ok_iff, Cat.queryFrames_eq_ok_iff, updateFrames, ih, List.forall_mem_cons,
      List.append_assoc, List.singleton_append]
    constructor
    · rintro ⟨f, ⟨hf, rfl⟩, hall, hx⟩
      exact ⟨⟨hf, hall⟩, hx⟩
    · rintro ⟨⟨hf, hall⟩, hx⟩
      exact ⟨_, ⟨hf, rfl⟩, hall, hx⟩

/-- The records in front of the frames: one by itself, and several in a list. -/
def Found.of (r : Record) (records : List Record) : Found :=
  if records = [] then .single r else .list (r :: records)

/-- Names that all stand for a record. -/
theorem framesWithRecordsNamed_eq_ok_iff {names : Names} {n : Bytes} {ns : List Bytes}
    (hnames : names.toList = n :: ns) {r : Record} {records : List Record}
    (hr : chosen g group groupPrefix n = some r)
    (hrecords : List.Forall₂ (fun n r => chosen g group groupPrefix n = some r) ns records)
    {x : Option Found × List Bytes} :
    framesWithRecordsNamed g names group groupPrefix = .ok x ↔
      Decodes g group groupPrefix ∧ (∀ s ∈ r :: records, ∀ i ∈ g.queryFrames s, IsUtf8 i) ∧
        x = (some (Found.of r records), sortFrames (common g (g.queryFrames r) records)) := by
  have hloop {d : Dict Bytes Record} (hd : allRecords g group groupPrefix = .ok d) {y} :
      collectFrames g d names.toList [] none = .ok y ↔
        (∀ s ∈ r :: records, ∀ i ∈ g.queryFrames s, IsUtf8 i) ∧
          y = some (r :: records, some (common g (g.queryFrames r) records)) := by
    have hfound : List.Forall₂ (fun n r => d.get? n = some r) ns records :=
      hrecords.imp fun n r h => (get?_of_allRecords hd n).trans h
    rw [hnames, collectFrames, get?_of_allRecords hd, hr]
    simp only [bind_eq_ok_iff, Cat.queryFrames_eq_ok_iff, collectFrames_eq_ok_iff hfound, updateFrames,
      List.forall_mem_cons, List.nil_append, List.singleton_append]
    constructor
    · rintro ⟨f, ⟨hf, rfl⟩, hall, hy⟩
      rw [(g.queryFrames_nodup r).dedup] at hy
      exact ⟨⟨hf, hall⟩, hy⟩
    · rintro ⟨⟨hf, hall⟩, hy⟩
      rw [← (g.queryFrames_nodup r).dedup] at hy
      exact ⟨_, ⟨hf, rfl⟩, hall, hy⟩
  -- There is more than one name when there are records behind the first one.
  have hreturn : returnFrames names.toList
      (some (r :: records, some (common g (g.queryFrames r) records))) =
      .ok (some (Found.of r records), sortFrames (common g (g.queryFrames r) records)) := by
    have hmany : (names.toList.length > 1) = ¬records = [] := by
      rw [hnames, List.length_cons, hrecords.length_eq, gt_iff_lt, Nat.lt_add_left_iff_pos,
        List.length_pos_iff]
    simp only [returnFrames, hmany, Found.of]
    -- One record is returned by itself.
    by_cases h : records = []
    · simp only [h]
      rfl
    · simp only [h]
      rfl
  rw [framesWithRecordsNamed, bind_eq_ok_iff]
  constructor
  · rintro ⟨d, hd, h⟩
    obtain ⟨y, hy, h⟩ := bind_eq_ok_iff.mp h
    obtain ⟨hutf8, rfl⟩ := (hloop hd).mp hy
    rw [hreturn] at h
    exact ⟨(allRecords_eq_ok_iff.mp hd).1, hutf8, (Except.ok.inj h).symm⟩
  · rintro ⟨hdecodes, hutf8, rfl⟩
    have hd := allRecords_eq_ok_iff.mpr ⟨hdecodes, rfl⟩
    exact ⟨_, hd, bind_eq_ok_iff.mpr ⟨_, (hloop hd).mpr ⟨hutf8, rfl⟩, hreturn⟩⟩

/-! ## Sorted frames -/

/-- UTF-8 strings with the same characters are the same. -/
theorem eq_of_codePoints_eq {a b : Bytes} (ha : IsUtf8 a) (hb : IsUtf8 b)
    (h : codePoints a = codePoints b) : a = b := by
  rw [← flatMap_codePoints ha, h, flatMap_codePoints hb]

/-- The elements of a set are sorted into the same list in whatever order they come. -/
theorem sortFrames_perm {frames frames' : List Bytes} (hutf8 : ∀ i ∈ frames, IsUtf8 i)
    (h : frames.Perm frames') : sortFrames frames = sortFrames frames' :=
  sortBy_perm (fun a ha b hb => eq_of_codePoints_eq (hutf8 a ha) (hutf8 b hb)) h

/-- Frames are not counted differently in bytes and in characters: one with fewer bytes has fewer
characters, or as many and is below as a string, and of two with as many bytes, one with fewer
characters is below as a string. -/
def SameOrder (frames : List Bytes) : Prop :=
  ∀ i ∈ frames, ∀ j ∈ frames,
    (i.length < j.length → (codePoints i).length < (codePoints j).length ∨
      (codePoints i).length = (codePoints j).length ∧ i < j) ∧
    (i.length = j.length → (codePoints i).length < (codePoints j).length → i < j)

/-- What one order says about two frames the other one says too. -/
theorem sameOrder_iff {frames : List Bytes} (hutf8 : ∀ i ∈ frames, IsUtf8 i) :
    SameOrder frames ↔ ∀ i ∈ frames, ∀ j ∈ frames, indexCompare i j = true →
      shortlex (codePoints i) (codePoints j) = true := by
  have hchars : ∀ i ∈ frames, ∀ j ∈ frames, (shortlex (codePoints i) (codePoints j) = true ↔
      (codePoints i).length < (codePoints j).length ∨
        (codePoints i).length = (codePoints j).length ∧ i < j) := by
    intro i hi j hj
    rw [shortlex_iff, codePoints_lt_iff (hutf8 i hi) (hutf8 j hj)]
  constructor
  · intro h i hi j hj hij
    rw [indexCompare_eq_shortlex, shortlex_iff] at hij
    rw [hchars i hi j hj]
    rcases hij with hlt | ⟨heq, hlt⟩
    · exact (h i hi j hj).1 hlt
    · rcases lt_trichotomy (codePoints i).length (codePoints j).length with hc | hc | hc
      · exact Or.inl hc
      · exact Or.inr ⟨hc, hlt⟩
      · exact absurd hlt (List.lt_asymm ((h j hj i hi).2 heq.symm hc))
  · intro h i hi j hj
    refine ⟨fun hlt => ?_, fun heq hc => ?_⟩
    · rw [← hchars i hi j hj]
      exact h i hi j hj (shortlex_iff.mpr (Or.inl hlt))
    · -- Were the other one below, it would not have more characters.
      by_contra hnot
      have hne : i ≠ j := by
        rintro rfl
        exact absurd hc (lt_irrefl _)
      have hlt : j < i := by
        rcases StrictTotal.trichotomy (r := bytesLt) i j with ⟨hij, -, -⟩ | ⟨-, hij, -⟩ | ⟨-, -, hji⟩
        · exact absurd (of_decide_eq_true hij) hnot
        · exact absurd hij hne
        · exact of_decide_eq_true hji
      have hback := h j hj i hi (shortlex_iff.mpr (Or.inr ⟨heq.symm, hlt⟩))
      rw [hchars j hj i hi] at hback
      omega

/-- For a name that stands for one record with frames in UTF-8, `framesWithRecordsNamed` returns the
list that `queryFrames` returns, exactly if the groups and names that are looked at are UTF-8 and no
two of the frames are counted differently. -/
theorem frames_eq_queryFrames_iff (g : Gtar Store) (group groupPrefix : Option Bytes) {names : Names}
    {n : Bytes} (hnames : names.toList = [n]) {r : Record}
    (hr : chosen g group groupPrefix n = some r) (hutf8 : ∀ i ∈ g.queryFrames r, IsUtf8 i) :
    (framesWithRecordsNamed g names group groupPrefix).map Prod.snd = .ok (g.queryFrames r) ↔
      Decodes g group groupPrefix ∧ SameOrder (g.queryFrames r) := by
  have hresult : (framesWithRecordsNamed g names group groupPrefix).map Prod.snd =
      .ok (g.queryFrames r) ↔ Decodes g group groupPrefix ∧
        sortFrames (g.queryFrames r) = g.queryFrames r := by
    rw [map_eq_ok_iff]
    simp only [framesWithRecordsNamed_eq_ok_iff hnames hr .nil]
    constructor
    · rintro ⟨x, ⟨hdecodes, -, rfl⟩, hx⟩
      exact ⟨hdecodes, hx⟩
    · rintro ⟨hdecodes, hsort⟩
      exact ⟨_, ⟨hdecodes, fun s hs => List.mem_singleton.mp hs ▸ hutf8, rfl⟩, hsort⟩
  rw [hresult]
  refine and_congr_right fun _ => ?_
  rw [sortFrames, sortBy_eq_self_iff
    (fun a ha b hb => eq_of_codePoints_eq (hutf8 a ha) (hutf8 b hb)) (g.queryFrames_nodup r),
    sameOrder_iff hutf8]
  exact pairwise_iff_of_sorted (s := fun a b => shortlex (codePoints a) (codePoints b))
    (g.queryFrames_sorted r)

/-- A file with the frames `9` and `10`. -/
theorem frames_eq_queryFrames_numbers :
    (framesWithRecordsNamed (.ofArchive mapBackend
        [(lit "frames/9/position.f32.ind", []), (lit "frames/10/position.f32.ind", [])])
      (.str (lit "position")) none none).map Prod.snd = .ok [lit "9", lit "10"] := by
  have hnames : (Names.str (lit "position")).toList = [lit "position"] := rfl
  have hiff := frames_eq_queryFrames_iff (.ofArchive mapBackend
      [(lit "frames/9/position.f32.ind", []), (lit "frames/10/position.f32.ind", [])]) none none hnames
    (r := (Record.ofPath (lit "frames/9/position.f32.ind")).withNullifiedIndex)
    (by decide +kernel) (by decide +kernel)
  have hframes : (Gtar.ofArchive mapBackend [(lit "frames/9/position.f32.ind", []),
      (lit "frames/10/position.f32.ind", [])]).queryFrames
      (Record.ofPath (lit "frames/9/position.f32.ind")).withNullifiedIndex = [lit "9", lit "10"] := by
    decide +kernel
  rw [hframes] at hiff
  refine hiff.mpr ⟨⟨fun h => ?_, ?_⟩, ?_⟩
  · rcases h with h | h
    · exact absurd rfl h
    · exact absurd rfl h
  · decide +kernel
  · unfold SameOrder
    decide +kernel

/-- A file with the frames `é` and `ab`, which have two bytes each: the library lists `ab` first,
and Python lists `é` first, which is one character. -/
theorem frames_eq_queryFrames_counterexample :
    (Gtar.ofArchive mapBackend [(lit "frames/" ++ [195, 169] ++ lit "/position.f32.ind", []),
      (lit "frames/ab/position.f32.ind", [])]).queryFrames
        (Record.ofPath (lit "frames/ab/position.f32.ind")) = [lit "ab", [195, 169]] ∧
    IsUtf8 [195, 169] ∧
    framesWithRecordsNamed (.ofArchive mapBackend
        [(lit "frames/" ++ [195, 169] ++ lit "/position.f32.ind", []),
          (lit "frames/ab/position.f32.ind", [])]) (.str (lit "position")) none none =
      .ok (some (.single (Record.ofPath (lit "frames/ab/position.f32.ind")).withNullifiedIndex),
        [[195, 169], lit "ab"]) := by
  refine ⟨by decide +kernel, by decide +kernel, ?_⟩
  decide +kernel

end Libgetar
