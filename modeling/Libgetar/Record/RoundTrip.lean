import Libgetar.Record.Decode

/-!
# Paths and records

The parser of the source against the abstract one. `ofPath_eq_decode_iff` says exactly for which
paths they agree (`SegmentsFit`): the second loop of `process` starts at an `int`, so with
`2^31 + 3` segments or more it starts too early, and segments that the first loop has put into the
group come twice. `Record/Paths.lean` then carries the inverse laws of `Record/Decode.lean` over to the source,
with this condition. The records that the parser produces are canonical without it.
-/

namespace Libgetar

open Lib

namespace Record

/-! ## Meanings are canonical -/

/-- The name fields of a parsed record are those of a canonical one. -/
theorem processName_canonical_name (r : Record) (hn : r.name = []) (hf : r.format = .uint8)
    (hr : r.resolution = .text) {name : Bytes} (h : slash ∉ name) :
    slash ∉ (r.processName name).name ∧
      ((r.processName name).resolution = .text →
        (r.processName name).format = .uint8 ∧ ¬HasSuffix (r.processName name).name) := by
  by_cases hs : HasSuffix name
  · obtain ⟨x, f, res, hres, rfl⟩ := hs
    rw [processName_suffix r x f hres, hn]
    simp only [List.mem_append, not_or] at h
    exact ⟨by simpa using h.1.1, fun ht => absurd ht hres⟩
  · rw [processName_plain r hf hr hs, hn]
    exact ⟨by simpa using h, fun _ => ⟨rfl, by simpa using hs⟩⟩

/-- A record parsed from segments without separators is canonical when its group, index, and
behavior are. -/
theorem processName_canonical {ds : List Bytes} {index name : Bytes} {behavior : Behavior}
    (hds : ∀ d ∈ ds, slash ∉ d) (hindex : slash ∉ index) (hname : slash ∉ name)
    (hci : behavior = .constant → index = [])
    (hcg : behavior = .constant → ∀ init a b, (joinSegs slash [] ds).splitOn slash = init ++ [a, b] →
      a ≠ lit "frames" ∧ a ≠ lit "vars") :
    (processName { group := joinSegs slash [] ds, index := index, behavior := behavior }
      name).Canonical := by
  obtain ⟨hn, ht⟩ := processName_canonical_name
    { group := joinSegs slash [] ds, index := index, behavior := behavior } rfl rfl rfl hname
  constructor
  · exact hn
  · simpa using hindex
  · simpa using joinSegs_nil_ne_cons slash ds hds
  · simpa using hci
  · simpa using hcg
  · exact fun h => (ht h).1
  · exact fun h => (ht h).2

/-- A group of at most one segment does not make a record discrete or continuous. -/
theorem group_of_length_le_one {ds : List Bytes} (hds : ∀ d ∈ ds, slash ∉ d) (hlen : ds.length ≤ 1)
    {init : List Bytes} {a b : Bytes} (h : (joinSegs slash [] ds).splitOn slash = init ++ [a, b]) :
    a ≠ lit "frames" ∧ a ≠ lit "vars" := by
  rw [splitOn_joinSegs_nil slash ds hds] at h
  have hl := congrArg List.length h
  have hdrop := List.length_dropWhile_le List.isEmpty ds
  split_ifs at hl
  · simp at hl
  · simp at hl; omega

/-- The second-to-last segment of a group of two segments or more is one that was put there. -/
theorem group_of_append {ds : List Bytes} {a b : Bytes} (hds : ∀ d ∈ ds ++ [a, b], slash ∉ d)
    {init : List Bytes} {a' b' : Bytes}
    (h : (joinSegs slash [] (ds ++ [a, b])).splitOn slash = init ++ [a', b']) : a' = a := by
  rw [splitOn_joinSegs_nil slash _ hds] at h
  have hsuf : (ds ++ [a, b]).dropWhile List.isEmpty <:+ ds ++ [a, b] := List.dropWhile_suffix _
  split_ifs at h
  · have hl := congrArg List.length h
    simp at hl
  · rw [h] at hsuf
    obtain ⟨pre, hpre⟩ := hsuf
    rw [← List.append_assoc] at hpre
    have := (List.append_inj' hpre rfl).2
    simp only [List.cons.injEq, and_true] at this
    exact this.1

/-- A constant record whose group ends in two given segments is canonical, when the first of them
is neither `frames` nor `vars`. -/
theorem processName_canonical_constant {ds : List Bytes} {a b c : Bytes}
    (hds : ∀ d ∈ ds ++ [a, b], slash ∉ d) (hc : slash ∉ c) (hframes : a ≠ lit "frames")
    (hvars : a ≠ lit "vars") :
    (processName { group := joinSegs slash [] (ds ++ [a, b]) } c).Canonical := by
  refine processName_canonical hds (by simp) hc (fun _ => rfl) fun _ init a' b' h => ?_
  rw [group_of_append hds h]
  exact ⟨hframes, hvars⟩

/-- What a path means is canonical. -/
theorem decode_canonical (path : Bytes) : (decode path).Canonical := by
  have hseg : ∀ d ∈ (path.splitOn slash).reverse, slash ∉ d := fun d hd =>
    not_mem_of_mem_splitOn (List.mem_reverse.mp hd)
  unfold decode
  rcases hrev : (path.splitOn slash).reverse with _ | ⟨c, _ | ⟨b, _ | ⟨a, ds⟩⟩⟩
  · simp at hrev
  · rw [hrev] at hseg
    have hnil : ∀ d ∈ ([] : List Bytes).reverse, slash ∉ d := by simp
    exact processName_canonical hnil (by simp) (hseg c (by simp)) (fun _ => rfl)
      fun _ _ _ _ => group_of_length_le_one hnil (by simp)
  · rw [hrev] at hseg
    have hb : ∀ d ∈ [b].reverse, slash ∉ d := by simpa using hseg b (by simp)
    exact processName_canonical hb (by simp) (hseg c (by simp)) (fun _ => rfl)
      fun _ _ _ _ => group_of_length_le_one hb (by simp)
  · rw [hrev] at hseg
    have hds : ∀ d ∈ ds.reverse, slash ∉ d := fun d hd => hseg d (by simp_all)
    simp only [decodeSegs]
    split_ifs with hframes hvars
    · exact processName_canonical hds (hseg b (by simp)) (hseg c (by simp)) (by simp) (by simp)
    · exact processName_canonical hds (hseg c (by simp)) (hseg b (by simp)) (by simp) (by simp)
    · have hab : (b :: a :: ds).reverse = ds.reverse ++ [a, b] := by simp
      rw [hab]
      refine processName_canonical_constant (fun d hd => hseg d ?_) (hseg c (by simp)) hframes hvars
      rw [← hab] at hd
      exact List.mem_cons_of_mem _ (List.mem_reverse.mp hd)

/-- A canonical record stays canonical without its index. -/
theorem Canonical.withNullifiedIndex {r : Record} (h : r.Canonical) :
    r.withNullifiedIndex.Canonical where
  name := h.name
  index := by simp [Record.withNullifiedIndex, nullifyIndex]
  group := h.group
  constant_index _ := rfl
  constant_group := h.constant_group
  text_format := h.text_format
  text_name := h.text_name

/-- The path of a canonical record names no other canonical record. -/
theorem getPath_injective {r s : Record} (hr : r.Canonical) (hs : s.Canonical)
    (h : r.getPath = s.getPath) : r = s := by
  rw [← decode_getPath hr, h, decode_getPath hs]

/-! ## The window of the parser -/

/-- The first number of segments for which `windowStart` is not the third-to-last one: the number
of those in front of it is no `int`. -/
def segmentBound : ℕ := intBound + 3

/-- The parser's window is in the right place, or its place does not matter: the path has fewer
than `2^31 + 3` segments, or the third-to-last one is `frames` or `vars`, or all in front of it are
empty. -/
def SegmentsFit (path : Bytes) : Prop :=
  (path.splitOn slash).length < segmentBound ∨
    ∃ init a b c, path.splitOn slash = init ++ [a, b, c] ∧
      (a = lit "frames" ∨ a = lit "vars" ∨ ∀ d ∈ init, d = [])

/-- Below the bound the window starts at the third-to-last segment. -/
theorem windowStart_of_lt {n : ℕ} (h : n < segmentBound) : windowStart n = n - 3 := by
  unfold segmentBound intBound at h
  unfold windowStart toInt intBound
  omega

/-- From the bound on the window starts too early, by as many segments as an `int` can count. -/
theorem windowStart_add_le {n : ℕ} (h : segmentBound ≤ n) :
    windowStart n + intBound ≤ n - 3 := by
  unfold segmentBound intBound at h
  unfold windowStart toInt intBound
  omega

/-- `processVarIndex` and `processName` set different fields. -/
theorem processName_processVarIndex (r : Record) (index name : Bytes) :
    (r.processName name).processVarIndex index = (r.processVarIndex index).processName name := by
  simp only [processName, processVarIndex]
  split_ifs
  · split <;> rfl
  · split <;> rfl
  · rfl
  · rfl

/-- The group of a constant record with the segments `init ++ [a, b]` in front of its name: what
the two loops of `process` add to it. -/
def loopGroup (init : List Bytes) (a b : Bytes) : Bytes :=
  joinSegs slash (joinSegs slash [] init) ((init ++ [a, b]).drop (windowStart (init.length + 3)))

/-- The two loops join every segment once exactly when the second starts where the first ended, or
what comes twice is empty. -/
theorem loopGroup_eq_iff (init : List Bytes) (a b : Bytes) :
    loopGroup init a b = joinSegs slash [] (init ++ [a, b]) ↔
      init.length + 3 < segmentBound ∨ ∀ d ∈ init, d = [] := by
  have hstart : windowStart (init.length + 3) ≤ init.length ∧
      (windowStart (init.length + 3) = init.length ↔ init.length + 3 < segmentBound) := by
    rcases Nat.lt_or_ge (init.length + 3) segmentBound with h | h
    · have := windowStart_of_lt h; omega
    · have := windowStart_add_le h; unfold intBound at this; omega
  have hoverlap := joinSegs_overlap_iff slash (init ++ [a, b]) hstart.1
    (by rw [List.length_append]; omega)
  rw [List.take_left' rfl, hstart.2] at hoverlap
  exact hoverlap

/-- The parser on three segments or more, with its window named. -/
theorem process_window (init : List Bytes) (a b c : Bytes) :
    process {} (init ++ [a, b, c]) =
      if a = lit "frames" then
        processName { group := joinSegs slash [] init, index := b, behavior := .discrete } c
      else if a = lit "vars" then
        processName { group := joinSegs slash [] init, index := c, behavior := .continuous } b
      else processName { group := loopGroup init a b } c := by
  have htake : (init ++ [a, b, c]).take (init.length + 3 - 1) = init ++ [a, b] := by
    rw [show init ++ [a, b, c] = init ++ [a, b] ++ [c] by simp]
    exact List.take_left' (by simp)
  simp only [process, List.length_append, List.length_cons, List.length_nil, htake,
    processName_processVarIndex]
  simp [processFrameIndex, processVarIndex, loopGroup]

/-- The parser on at most two segments. -/
theorem process_short (ds : List Bytes) (hds : ds.length ≤ 1) (c : Bytes) :
    process {} (ds ++ [c]) = processName { group := joinSegs slash [] ds } c := by
  have hlen : (ds ++ [c]).length = ds.length + 1 := by simp
  have hstart : windowStart (ds.length + 1) = 0 := by
    rw [windowStart_of_lt (by unfold segmentBound; omega)]
    omega
  have hwin : ¬ds.length + 1 > 2 := by omega
  simp only [process, hlen, hstart, hwin]
  simp [show ds.length + 1 - 3 = 0 by omega]

/-- Whether the segments fit, with the window named. -/
theorem segmentsFit_window {path : Bytes} {init : List Bytes} {a b c : Bytes}
    (h : path.splitOn slash = init ++ [a, b, c]) :
    SegmentsFit path ↔ init.length + 3 < segmentBound ∨ a = lit "frames" ∨ a = lit "vars" ∨
      ∀ d ∈ init, d = [] := by
  unfold SegmentsFit
  rw [h, List.length_append]
  refine or_congr_right ⟨?_, fun h => ⟨init, a, b, c, rfl, h⟩⟩
  -- The last three segments are determined by the path.
  rintro ⟨init', a', b', c', heq, h⟩
  obtain ⟨rfl, hwin⟩ := List.append_inj' heq rfl
  obtain ⟨rfl, -⟩ := List.cons_eq_cons.mp hwin
  exact h

/-- Segments that do not fit, with the window named. -/
theorem exists_window_of_not_segmentsFit {path : Bytes} (h : ¬SegmentsFit path) :
    ∃ init a b c, path.splitOn slash = init ++ [a, b, c] ∧ segmentBound ≤ init.length + 3 ∧
      a ≠ lit "frames" ∧ a ≠ lit "vars" ∧ ¬∀ d ∈ init, d = [] := by
  have hlen : 2 < (path.splitOn slash).length := by
    by_contra hle
    exact h (Or.inl (by unfold segmentBound; omega))
  obtain ⟨init, a, b, c, hsegs⟩ := exists_eq_append_three hlen
  rw [segmentsFit_window hsegs, not_or, not_or, not_or, not_lt] at h
  exact ⟨init, a, b, c, hsegs, h⟩

/-- The parser of the source produces what the path means, exactly when its segments fit. -/
theorem ofPath_eq_decode_iff (path : Bytes) : ofPath path = decode path ↔ SegmentsFit path := by
  have hne := List.splitOn_ne_nil slash path
  rw [ofPath, decode, split_eq_splitOn]
  rcases Nat.lt_or_ge 2 (path.splitOn slash).length with hlen | hlen
  · obtain ⟨init, a, b, c, hsegs⟩ := exists_eq_append_three hlen
    rw [segmentsFit_window hsegs, hsegs, process_window,
      show (init ++ [a, b, c]).reverse = c :: b :: a :: init.reverse by simp, decodeSegs,
      List.reverse_reverse, show (b :: a :: init.reverse).reverse = init ++ [a, b] by simp]
    by_cases hframes : a = lit "frames"
    · rw [if_pos hframes, if_pos hframes]
      exact iff_of_true rfl (Or.inr (Or.inl hframes))
    · by_cases hvars : a = lit "vars"
      · rw [if_neg hframes, if_neg hframes, if_pos hvars, if_pos hvars]
        exact iff_of_true rfl (Or.inr (Or.inr (Or.inl hvars)))
      · -- A constant record: the two differ in what the second loop puts into the group.
        rw [if_neg hframes, if_neg hframes, if_neg hvars, if_neg hvars]
        have hcases : (init.length + 3 < segmentBound ∨ a = lit "frames" ∨ a = lit "vars" ∨
            ∀ d ∈ init, d = []) ↔ init.length + 3 < segmentBound ∨ ∀ d ∈ init, d = [] := by tauto
        rw [hcases, ← loopGroup_eq_iff init a b]
        refine ⟨fun h => ?_, fun h => by rw [h]⟩
        simpa using congrArg Record.group h
  · -- At most two segments: all but the last are the group.
    obtain ⟨ds, c, hsegs⟩ : ∃ ds c, path.splitOn slash = ds ++ [c] :=
      ⟨_, _, (List.dropLast_append_getLast hne).symm⟩
    have hds : ds.length ≤ 1 := by
      rw [hsegs, List.length_append, List.length_singleton] at hlen
      omega
    refine iff_of_true ?_ (Or.inl (by unfold segmentBound; omega))
    rw [hsegs, process_short ds hds]
    rcases ds with _ | ⟨d, _ | ⟨e, ds⟩⟩
    · rfl
    · rfl
    · rw [List.length_cons, List.length_cons] at hds
      omega

end Record

end Libgetar
