import Libgetar.Record.RoundTrip

/-!
# Path identity

The two laws that the rest of the library relies on when it moves between paths and records.

- Printing a parsed path gives the path back without its leading separators. `path_identity_iff`
  says for which paths the source does so: exactly for those whose segments fit (`SegmentsFit`).
- Parsing a printed record gives the record back exactly for the canonical records. The records
  that the parser produces are canonical, and no two canonical records share a path
  (`canonical_round_trip`). Again the source needs the segments of the path to fit, which for a
  canonical record is a bound on the separators in the group of a constant one.
-/

namespace Libgetar

open Lib

namespace Record

/-! ## The source's parser -/

/-- `processName` does not look at the group. -/
theorem processName_setGroup (r : Record) (g name : Bytes) :
    processName { r with group := g } name = { r.processName name with group := g } := by
  simp only [processName]
  split_ifs
  · split <;> rfl
  · split <;> rfl
  · rfl
  · rfl

/-- What the source parses differs from what the path means in the group at most. -/
theorem exists_ofPath_eq (path : Bytes) : ∃ g, ofPath path = { decode path with group := g } := by
  by_cases hfit : SegmentsFit path
  · exact ⟨(decode path).group, (ofPath_eq_decode_iff path).mpr hfit⟩
  · obtain ⟨init, a, b, c, hsegs, -, hframes, hvars, -⟩ := exists_window_of_not_segmentsFit hfit
    refine ⟨loopGroup init a b, ?_⟩
    rw [ofPath, decode, split_eq_splitOn, hsegs, process_window, if_neg hframes, if_neg hvars,
      show (init ++ [a, b, c]).reverse = c :: b :: a :: init.reverse by simp, decodeSegs,
      if_neg hframes, if_neg hvars, ← processName_setGroup]

/-- The group can be read off the path of a record whose other fields are known. -/
theorem getPath_setGroup_injective (r : Record) {g g' : Bytes}
    (h : ({ r with group := g } : Record).getPath = ({ r with group := g' } : Record).getPath) :
    g = g' := by
  have hpre := List.append_cancel_right h
  simp only at hpre
  split_ifs at hpre with hg hg' hg'
  · exact List.append_cancel_right hpre
  · simp at hpre
  · simp at hpre
  · simp only [not_not, List.length_eq_zero_iff] at hg hg'
    rw [hg, hg']

/-- The source prints a parsed path as it should exactly when it parsed what the path means. -/
theorem getPath_ofPath_eq_iff (path : Bytes) :
    (ofPath path).getPath = path.dropWhile (· == slash) ↔ ofPath path = decode path := by
  rw [← getPath_decode]
  refine ⟨fun h => ?_, fun h => by rw [h]⟩
  obtain ⟨g, hg⟩ := exists_ofPath_eq path
  rw [hg] at h ⊢
  have hgroup : g = (decode path).group := getPath_setGroup_injective (decode path) h
  rw [hgroup]

/-- The records that the source parses are canonical. -/
theorem ofPath_canonical (path : Bytes) : (ofPath path).Canonical := by
  by_cases hfit : SegmentsFit path
  · rw [(ofPath_eq_decode_iff path).mpr hfit]
    exact decode_canonical path
  · obtain ⟨init, a, b, c, hsegs, hlong, hframes, hvars, -⟩ :=
      exists_window_of_not_segmentsFit hfit
    have hseg : ∀ d ∈ init ++ [a, b, c], slash ∉ d := fun d hd =>
      not_mem_of_mem_splitOn (hsegs ▸ hd)
    rw [ofPath, split_eq_splitOn, hsegs, process_window, if_neg hframes, if_neg hvars]
    -- What the second loop adds still ends in the last two segments.
    have hstart : windowStart (init.length + 3) ≤ init.length := by
      have := windowStart_add_le hlong
      omega
    have hgroup : loopGroup init a b =
        joinSegs slash [] (init ++ init.drop (windowStart (init.length + 3)) ++ [a, b]) := by
      rw [loopGroup, List.drop_append_of_le_length hstart, ← joinSegs_append, List.append_assoc]
    rw [hgroup]
    refine processName_canonical_constant (fun d hd => hseg d ?_) (hseg c (by simp)) hframes hvars
    simp only [List.mem_append] at hd ⊢
    rcases hd with (hd | hd) | hd
    · exact Or.inl hd
    · exact Or.inl (List.mem_of_mem_drop hd)
    · exact Or.inr (List.mem_append_left [c] hd)

/-! ## Paths -/

/-- Printing a parsed path gives the path back without its leading separators, exactly when its
segments fit. -/
theorem path_identity_iff (path : Bytes) :
    (ofPath path).getPath = path.dropWhile (· == slash) ↔ SegmentsFit path := by
  rw [getPath_ofPath_eq_iff, ofPath_eq_decode_iff]

/-- The segments of a byte and a run of separators. -/
theorem splitOn_cons_replicate {a : UInt8} (ha : a ≠ slash) (k : ℕ) :
    (a :: List.replicate k slash).splitOn slash = [a] :: List.replicate k [] := by
  rw [List.splitOn_cons_eq_if_modifyHead, splitOn_replicate, if_neg (by simpa using ha),
    List.replicate_succ, List.modifyHead_cons]

/-- A byte and a long run of separators do not fit. -/
theorem not_segmentsFit_replicate {a : UInt8} (ha : a ≠ slash) {k : ℕ} (hk : segmentBound ≤ k + 1) :
    ¬SegmentsFit (a :: List.replicate k slash) := by
  obtain ⟨j, rfl⟩ : ∃ j, k = j + 3 := ⟨k - 3, by unfold segmentBound intBound at hk; omega⟩
  have hsegs : (a :: List.replicate (j + 3) slash).splitOn slash =
      ([a] :: List.replicate j []) ++ [[], [], []] := by
    rw [splitOn_cons_replicate ha, List.replicate_add]
    rfl
  rw [segmentsFit_window hsegs]
  simp only [List.length_cons, List.length_replicate, not_or]
  refine ⟨by omega, by decide, by decide, fun h => ?_⟩
  exact List.cons_ne_nil _ _ (h [a] List.mem_cons_self)

/-- A path with its last `2^31 + 2` segments empty does not come back. -/
theorem path_identity_counterexample :
    ¬(ofPath (97 :: List.replicate (2^31 + 2) slash)).getPath =
      (97 :: List.replicate (2^31 + 2) slash).dropWhile (· == slash) := by
  rw [getPath_ofPath_eq_iff, ofPath_eq_decode_iff]
  exact not_segmentsFit_replicate (by decide) (by unfold segmentBound intBound; omega)

/-! ## Records -/

/-- The path of a canonical record fits exactly when the group of a constant one has a bounded
number of separators. -/
theorem segmentsFit_getPath_iff {r : Record} (h : r.Canonical) :
    SegmentsFit r.getPath ↔ (r.behavior = .constant → r.group.count slash + 2 < segmentBound) := by
  have hsegs := splitOn_getPath h
  rcases hb : r.behavior with _ | _ | _
  · -- A constant record is printed as group and name, and the group does not end as a frame does.
    simp only [forall_const]
    rw [window, hb] at hsegs
    by_cases hg : r.group = []
    · rw [if_pos hg] at hsegs
      refine iff_of_true (Or.inl ?_) ?_
      · rw [hsegs]; unfold segmentBound; simp
      · rw [hg]; unfold segmentBound; simp
    · rw [if_neg hg] at hsegs
      have hlen : (r.getPath.splitOn slash).length = r.group.count slash + 2 := by
        rw [hsegs, List.length_append, length_splitOn]
        rfl
      refine ⟨fun hfit => ?_, fun hc => Or.inl (by omega)⟩
      rcases hfit with hlt | ⟨init, a, b, c, heq, hwin⟩
      · omega
      · rw [hsegs, show init ++ [a, b, c] = init ++ [a, b] ++ [c] by simp] at heq
        obtain ⟨hgroup, -⟩ := List.append_inj' heq rfl
        have hne := h.constant_group hb init a b hgroup
        rcases hwin with hframes | hvars | hempty
        · exact absurd hframes hne.1
        · exact absurd hvars hne.2
        · -- An empty first segment would be a leading separator.
          rcases init with _ | ⟨d, init⟩
          · rw [hsegs, hgroup] at hlen
            have : r.group.count slash + 2 = 3 := by simpa using hlen.symm
            unfold segmentBound intBound
            omega
          · have hd := hempty d List.mem_cons_self
            have hjoin : [slash].intercalate (r.group.splitOn slash) = r.group :=
              List.intercalate_splitOn slash
            rw [hgroup, hd, List.cons_append, List.intercalate_cons_of_ne_nil (by simp)] at hjoin
            exact absurd hjoin.symm (h.group _)
  · -- The segment `frames` is in the window.
    refine iff_of_true (Or.inr ?_) (by simp)
    rw [window, hb] at hsegs
    exact ⟨_, _, _, _, hsegs, Or.inl rfl⟩
  · -- The segment `vars` is.
    refine iff_of_true (Or.inr ?_) (by simp)
    rw [window, hb] at hsegs
    exact ⟨_, _, _, _, hsegs, Or.inr (Or.inl rfl)⟩

/-- The source parses the path of a canonical record back exactly when the path fits. -/
theorem ofPath_getPath_iff {r : Record} (h : r.Canonical) :
    ofPath r.getPath = r ↔ (r.behavior = .constant → r.group.count slash + 2 < segmentBound) := by
  rw [← segmentsFit_getPath_iff h, ← ofPath_eq_decode_iff, decode_getPath h]

/-- Parsing a printed record gives the record back exactly for canonical records, as long as the
group of a constant one has a bounded number of separators; what the parser produces is canonical,
with its index and without; and no two canonical records share a path. -/
theorem canonical_round_trip (r s : Record) (path : Bytes) :
    ((ofPath r.getPath = r ↔ r.Canonical) ↔
      ¬r.Canonical ∨ (r.behavior = .constant → r.group.count slash + 2 < segmentBound)) ∧
    ((ofPath path).Canonical ∧ (ofPath path).withNullifiedIndex.Canonical) ∧
    (r.Canonical → s.Canonical → r.getPath = s.getPath → r = s) := by
  refine ⟨?_, ⟨ofPath_canonical path, (ofPath_canonical path).withNullifiedIndex⟩, getPath_injective⟩
  by_cases hcan : r.Canonical
  · rw [ofPath_getPath_iff hcan]
    tauto
  · have hne : ofPath r.getPath ≠ r := fun h => hcan (h ▸ ofPath_canonical r.getPath)
    tauto

/-- A constant record with a byte and a run of separators as its group is canonical. -/
theorem canonical_replicate {a : UInt8} (ha : a ≠ slash) (k : ℕ) (hk : 2 ≤ k) :
    ({ group := a :: List.replicate k slash } : Record).Canonical where
  name := by simp
  index := by simp
  group g h := ha (List.cons_eq_cons.mp h).1
  constant_index _ := rfl
  constant_group _ init b c h := by
    obtain ⟨j, rfl⟩ : ∃ j, k = j + 2 := ⟨k - 2, by omega⟩
    have hsegs : (a :: List.replicate (j + 2) slash).splitOn slash =
        ([a] :: List.replicate j []) ++ [[], []] := by
      rw [splitOn_cons_replicate ha, List.replicate_add]
      rfl
    obtain ⟨-, hwin⟩ := List.append_inj' (hsegs.symm.trans h) rfl
    obtain ⟨rfl, -⟩ := List.cons_eq_cons.mp hwin
    exact ⟨by decide, by decide⟩
  text_format _ := rfl
  text_name _ := by
    rintro ⟨x, f, res, -, h⟩
    have hlen := congrArg List.length h
    rw [f.suffix_eq] at hlen
    simp at hlen

/-- A canonical constant record whose group has `2^31 + 2` separators does not come back. -/
theorem canonical_round_trip_counterexample :
    ¬(ofPath ({ group := 97 :: List.replicate (2^31 + 2) slash } : Record).getPath =
        { group := 97 :: List.replicate (2^31 + 2) slash } ↔
      ({ group := 97 :: List.replicate (2^31 + 2) slash } : Record).Canonical) := by
  have hcan := canonical_replicate (a := 97) (by decide) (2^31 + 2) (by omega)
  rw [ofPath_getPath_iff hcan]
  intro h
  have hlt := h.mpr hcan rfl
  simp only [List.count_cons, List.count_replicate_self] at hlt
  unfold segmentBound intBound at hlt
  omega

/-! ## Several paths -/

/-- A short path fits. -/
theorem segmentsFit_of_length_lt {path : Bytes} (h : path.length + 1 < segmentBound) :
    SegmentsFit path := by
  have hcount := List.count_le_length (a := slash) (l := path)
  exact Or.inl (by rw [length_splitOn]; omega)

/-- A path whose segments fit does so without its leading separators. -/
theorem SegmentsFit.dropWhile {path : Bytes} (h : SegmentsFit path) :
    SegmentsFit (path.dropWhile (· == slash)) := by
  rcases h with hlt | ⟨init, a, b, c, hsegs, hwin⟩
  · have hcount := List.Sublist.count_le slash (List.dropWhile_sublist (· == slash) (l := path))
    rw [length_splitOn] at hlt
    exact Or.inl (by rw [length_splitOn]; omega)
  · have hstrip := splitOn_joinSegs_nil slash (path.splitOn slash) fun _ => not_mem_of_mem_splitOn
    rw [joinSegs_splitOn, hsegs, List.dropWhile_append] at hstrip
    -- The window is kept when it starts with a segment that is not empty.
    have hkeep (ha : a ≠ []) : ∃ init',
        (path.dropWhile (· == slash)).splitOn slash = init' ++ [a, b, c] := by
      rw [List.dropWhile_cons_of_neg (by simpa using ha)] at hstrip
      by_cases hinit : (init.dropWhile List.isEmpty).isEmpty
      · rw [if_pos hinit, if_neg (List.cons_ne_nil _ _)] at hstrip
        exact ⟨[], hstrip⟩
      · rw [if_neg hinit, if_neg (by simp)] at hstrip
        exact ⟨_, hstrip⟩
    rcases hwin with hframes | hvars | hempty
    · obtain ⟨init', hkept⟩ := hkeep (by rw [hframes]; decide)
      exact Or.inr ⟨init', a, b, c, hkept, Or.inl hframes⟩
    · obtain ⟨init', hkept⟩ := hkeep (by rw [hvars]; decide)
      exact Or.inr ⟨init', a, b, c, hkept, Or.inr (Or.inl hvars)⟩
    · -- At most the window is left.
      have hinit : init.dropWhile List.isEmpty = [] :=
        List.dropWhile_eq_nil_iff.mpr fun d hd => List.isEmpty_iff.mpr (hempty d hd)
      have hle := List.length_dropWhile_le List.isEmpty [a, b, c]
      rw [hinit, List.isEmpty_nil, if_pos rfl] at hstrip
      refine Or.inl ?_
      rw [hstrip]
      unfold segmentBound intBound
      split_ifs
      · simp
      · simp only [List.length_cons, List.length_nil] at hle
        omega

/-- A path whose segments do not fit is printed with more separators than it has, and with too
many to fit. -/
theorem count_getPath_of_not_segmentsFit {path : Bytes} (h : ¬SegmentsFit path) :
    (path.dropWhile (· == slash)).count slash < (ofPath path).getPath.count slash ∧
      ¬SegmentsFit (ofPath path).getPath := by
  obtain ⟨init, a, b, c, hsegs, hlong, hframes, hvars, hinit⟩ :=
    exists_window_of_not_segmentsFit h
  have hseg : ∀ d ∈ init ++ [a, b, c], slash ∉ d := fun d hd =>
    not_mem_of_mem_splitOn (hsegs ▸ hd)
  have hne : joinSegs slash [] init ≠ [] := fun hnil =>
    hinit ((joinSegs_nil_eq_nil_iff slash init).mp hnil)
  have hgroup : loopGroup init a b ≠ [] := by
    rw [loopGroup, joinSegs_of_ne_nil slash hne]
    exact fun hnil => hne (List.append_eq_nil_iff.mp hnil).1
  have hparsed : ofPath path = processName { group := loopGroup init a b } c := by
    rw [ofPath, split_eq_splitOn, hsegs, process_window, if_neg hframes, if_neg hvars]
  have hprinted : (ofPath path).getPath = joinSegs slash (loopGroup init a b) [c] := by
    rw [hparsed, getPath_eq_joinSegs, window_processName _ rfl rfl rfl, processName_group]
  -- What comes twice is behind a group that is not empty.
  have hcount : (loopGroup init a b).count slash = (joinSegs slash [] init).count slash +
      (init.length + 2 - windowStart (init.length + 3)) := by
    rw [loopGroup, count_joinSegs slash hne fun d hd => hseg d (by
      rw [List.append_cons, List.append_cons, List.append_assoc _ [a]]
      exact List.mem_append_left _ (List.mem_of_mem_drop hd)), List.length_drop, List.length_append]
    rfl
  have hstart : windowStart (init.length + 3) < init.length ∧
      segmentBound ≤ init.length + 4 - windowStart (init.length + 3) := by
    have := windowStart_add_le hlong
    unfold segmentBound intBound at *
    omega
  constructor
  · -- Some segments are printed twice.
    have hwin : ∀ d ∈ [a, b, c], slash ∉ d := fun d hd => hseg d (List.mem_append_right _ hd)
    have hlast : ∀ d ∈ [c], slash ∉ d := List.forall_mem_singleton.mpr (hwin c (by simp))
    rw [← joinSegs_splitOn, hsegs, joinSegs_append, count_joinSegs slash hne hwin, hprinted,
      count_joinSegs slash hgroup hlast, hcount, List.length_cons, List.length_cons]
    omega
  · -- So the printed path has too many segments again.
    have hconstant : (ofPath path).behavior = .constant := by
      rw [hparsed, processName_behavior]
    have hgroup' : (ofPath path).group = loopGroup init a b := by
      rw [hparsed, processName_group]
    rw [segmentsFit_getPath_iff (ofPath_canonical path), hgroup', hcount]
    intro hfew
    have := hfew hconstant
    omega

/-- Some paths, printed after they have been parsed, are the paths without their leading separators
exactly when the segments of each fit. -/
theorem printed_eq_iff (paths : List Bytes) :
    ({ q | ∃ p ∈ paths, q = (ofPath p).getPath } : Set Bytes) =
        { q | ∃ p ∈ paths, q = p.dropWhile (· == slash) } ↔
      ∀ p ∈ paths, SegmentsFit p := by
  constructor
  · intro heq
    by_contra hmis
    simp only [not_forall] at hmis
    obtain ⟨p₀, hp₀, hmis⟩ := hmis
    -- Of the paths that do not fit, take one with the most separators.
    obtain ⟨p, ⟨hp, hfit⟩, hmax⟩ := Set.exists_max_image { p | p ∈ paths ∧ ¬SegmentsFit p }
      (fun p => (p.dropWhile (· == slash)).count slash)
      ((List.finite_toSet paths).subset fun p hp => hp.1) ⟨p₀, hp₀, hmis⟩
    obtain ⟨hmore, hlong⟩ := count_getPath_of_not_segmentsFit hfit
    -- What it is printed as is none of the paths: it is longer, and does not fit either.
    have hmem : (ofPath p).getPath ∈ { q | ∃ p ∈ paths, q = (ofPath p).getPath } := ⟨p, hp, rfl⟩
    rw [heq] at hmem
    obtain ⟨q, hq, hprinted⟩ := hmem
    rw [hprinted] at hmore hlong
    have hle := hmax q ⟨hq, fun hfitq => hlong hfitq.dropWhile⟩
    exact absurd hmore (not_lt.mpr hle)
  · intro hfit
    ext q
    have hprint (p : Bytes) (hp : p ∈ paths) : (ofPath p).getPath = p.dropWhile (· == slash) :=
      (getPath_ofPath_eq_iff p).mpr ((ofPath_eq_decode_iff p).mpr (hfit p hp))
    constructor
    · rintro ⟨p, hp, rfl⟩
      exact ⟨p, hp, hprint p hp⟩
    · rintro ⟨p, hp, rfl⟩
      exact ⟨p, hp, (hprint p hp).symm⟩

end Record

end Libgetar
