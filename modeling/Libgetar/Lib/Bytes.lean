import Mathlib

/-!
# Byte strings: splitting and joining

The operations of `std::string` that programs split and build paths with: `find` of a character
from a position, `substr`, the loop that cuts a string at every separator (`split`), and the loop
that builds one by adding segments, with a separator only behind what is not yet empty (`joinSegs`).

`split_eq_splitOn` says that the loop over positions is `List.splitOn`, and
`joinSegs_nil_eq_dropWhile` that joining from the empty string loses exactly the leading
separators. The other results relate segments to the string they were cut from.
-/

namespace Libgetar.Lib

/-- A byte string: a `std::string`, or the bytes of a file. -/
abbrev Bytes := List UInt8

/-- The bytes of a string literal. -/
def lit (s : String) : Bytes := s.toUTF8.data.toList

/-- The characters of a C string: what stands in front of the first NUL. -/
def cStr (s : Bytes) : Bytes := s.takeWhile (· != 0)

variable {α : Type*}

/-- `s.find(c, pos)`, with `none` for `npos`. -/
def find [BEq α] (s : List α) (c : α) (pos : ℕ) : Option ℕ :=
  ((s.drop pos).findIdx? (· == c)).map (pos + ·)

/-- `s.substr(pos, n)`. -/
def substr (s : List α) (pos n : ℕ) : List α := (s.drop pos).take n

/-- `s.rfind(pattern)`: the last position at which the pattern stands. -/
def rfind [BEq α] (s pattern : List α) : Option ℕ :=
  ((List.range (s.length + 1)).filter fun i => substr s i pattern.length == pattern).getLast?

/-- The loop that cuts `s` at every `sep`, from position `pos` on: while `nextpos` is not `npos`,
the segment from `pos` to `nextpos` is pushed and the loop goes on behind the separator; the last
segment is what is left. -/
def splitFrom [BEq α] (s : List α) (sep : α) : ℕ → ℕ → List (List α)
  | 0, _ => []
  | fuel + 1, pos =>
    match find s sep pos with
    | none => [s.drop pos]
    | some nextpos => substr s pos (nextpos - pos) :: splitFrom s sep fuel (nextpos + 1)

/-- The segments of `s` between the separators. The loop runs at most once for each position. -/
def split [BEq α] (s : List α) (sep : α) : List (List α) := splitFrom s sep (s.length + 1) 0

/-- One step of the joining loop: `if(g.size()) g += sep; g += d;`. -/
def joinStep (sep : α) (g d : List α) : List α :=
  (if g.length ≠ 0 then g ++ [sep] else g) ++ d

/-- The joining loop over the segments `ds`, from `g` on. -/
def joinSegs (sep : α) (g : List α) (ds : List (List α)) : List α := ds.foldl (joinStep sep) g

/-! ## C strings -/

/-- A text without NUL is the whole text. -/
theorem cStr_eq_self {s : Bytes} (h : 0 ∉ s) : cStr s = s := by
  refine List.takeWhile_eq_self_iff.mpr fun c hc => ?_
  have hne : c ≠ 0 := by
    rintro rfl
    exact h hc
  simpa using hne

theorem zero_not_mem_cStr (s : Bytes) : 0 ∉ cStr s := by
  intro hmem
  have hkept := List.mem_takeWhile_imp hmem
  simp at hkept

theorem cStr_append_of_not_mem {s : Bytes} (h : 0 ∉ s) (rest : Bytes) :
    cStr (s ++ rest) = s ++ cStr rest := by
  have hpos : ∀ c ∈ s, (c != 0) = true := by
    intro c hc
    have hne : c ≠ 0 := by
      rintro rfl
      exact h hc
    simpa using hne
  rw [cStr, List.takeWhile_append_of_pos hpos, cStr]

/-- What stands behind a NUL does not count. -/
theorem cStr_append_of_mem {s : Bytes} (h : 0 ∈ s) (rest : Bytes) : cStr (s ++ rest) = cStr s := by
  obtain ⟨before, after, rfl, hbefore⟩ := List.eq_append_cons_of_mem h
  rw [List.append_assoc, cStr_append_of_not_mem hbefore, cStr_append_of_not_mem hbefore]
  rfl

/-- NULs behind a text are not part of it. -/
theorem cStr_append_replicate (s : Bytes) (k : ℕ) : cStr (s ++ List.replicate k 0) = cStr s := by
  by_cases h : 0 ∈ s
  · exact cStr_append_of_mem h _
  · rw [cStr_append_of_not_mem h, cStr_eq_self h]
    cases k with
    | zero => exact List.append_nil s
    | succ k => exact List.append_nil s

/-! ## Splitting -/

/-- From a position inside the string, with enough fuel, the loop is `List.splitOn` of the rest. -/
theorem splitFrom_eq_splitOn [BEq α] [LawfulBEq α] (s : List α) (sep : α) :
    ∀ (fuel pos : ℕ), s.length < fuel + pos → pos ≤ s.length →
      splitFrom s sep fuel pos = (s.drop pos).splitOn sep
  | 0, pos, h, hp => by omega
  | fuel + 1, pos, h, hp => by
    simp only [splitFrom, find]
    rcases hidx : (s.drop pos).findIdx? (· == sep) with _ | i
    · have hnone : sep ∉ s.drop pos := by
        intro hmem
        have := (List.findIdx?_eq_none_iff.mp hidx) sep hmem
        simp at this
      simp only [Option.map_none]
      rw [List.splitOn_eq_singleton hnone]
    · obtain ⟨hi, hsep, hbefore⟩ := List.findIdx?_eq_some_iff_getElem.mp hidx
      rw [List.length_drop] at hi
      simp only [Option.map_some, substr, show pos + i - pos = i by omega]
      rw [splitFrom_eq_splitOn s sep fuel (pos + i + 1) (by omega) (by omega)]
      -- The string splits at the first separator behind `pos`.
      have hlt : i < (s.drop pos).length := by rw [List.length_drop]; omega
      have hget : (s.drop pos)[i] = sep := by simpa using hsep
      have hcut : s.drop pos = (s.drop pos).take i ++ sep :: s.drop (pos + i + 1) := by
        conv_lhs => rw [← List.take_append_drop i (s.drop pos)]
        congr 1
        rw [List.drop_eq_getElem_cons hlt, hget, List.drop_drop]
        congr 2
      have hnot : sep ∉ (s.drop pos).take i := by
        intro hmem
        obtain ⟨j, hj, hje⟩ := List.mem_take_iff_getElem.mp hmem
        have := hbefore j (by omega)
        rw [hje] at this
        simp at this
      conv_rhs => rw [hcut]
      rw [List.splitOn_append_cons_self_of_not_mem hnot]

/-- The splitting loop is `List.splitOn`. -/
theorem split_eq_splitOn [BEq α] [LawfulBEq α] (s : List α) (sep : α) :
    split s sep = s.splitOn sep := by
  simpa [split] using splitFrom_eq_splitOn s sep (s.length + 1) 0 (by omega) (by omega)

/-- No segment contains the separator. -/
theorem not_mem_of_mem_splitOn [BEq α] [LawfulBEq α] {sep : α} :
    ∀ {s d : List α}, d ∈ s.splitOn sep → sep ∉ d
  | [], d, h => by simp_all
  | x :: xs, d, h => by
    rw [List.splitOn_cons_eq_if_modifyHead] at h
    obtain ⟨e, es, hes⟩ := List.exists_cons_of_ne_nil (List.splitOn_ne_nil sep xs)
    have ih : ∀ d ∈ e :: es, sep ∉ d := fun d hd => not_mem_of_mem_splitOn (hes ▸ hd)
    rw [hes] at h
    split at h
    · rcases List.mem_cons.mp h with rfl | h
      · simp
      · exact ih d h
    · rename_i hx
      rw [List.modifyHead_cons] at h
      rcases List.mem_cons.mp h with rfl | h
      · have := ih e List.mem_cons_self
        simp only [beq_iff_eq] at hx
        simp only [List.mem_cons, not_or]
        exact ⟨fun e => hx e.symm, this⟩
      · exact ih d (List.mem_cons_of_mem _ h)

/-- There is one segment more than there are separators. -/
theorem length_splitOn [BEq α] [LawfulBEq α] (sep : α) :
    ∀ s : List α, (s.splitOn sep).length = s.count sep + 1
  | [] => by simp
  | x :: xs => by
    have ih := length_splitOn sep xs
    rw [List.splitOn_cons_eq_if_modifyHead]
    by_cases h : x = sep
    · subst h; simp [ih]
    · simp [h, ih]

/-- A run of separators cuts into empty segments. -/
theorem splitOn_replicate [BEq α] [LawfulBEq α] (sep : α) (k : ℕ) :
    (List.replicate k sep).splitOn sep = List.replicate (k + 1) [] := by
  induction k with
  | zero => rfl
  | succ k ih =>
    rw [List.replicate_succ, List.splitOn_cons_eq_if_modifyHead, ih, if_pos (by simp),
      List.replicate_succ (n := k + 1)]

/-! ## Searching -/

/-- Behind `front`, the first separator is the one behind a segment. -/
theorem find_append_cons [BEq α] [LawfulBEq α] {sep : α} (front : List α) {d : List α} (hd : sep ∉ d)
    (rest : List α) :
    find (front ++ (d ++ sep :: rest)) sep front.length = some (front.length + d.length) := by
  have hnone : d.findIdx? (· == sep) = none := by
    refine List.findIdx?_eq_none_iff.mpr fun c hc => ?_
    rw [beq_eq_false_iff_ne]
    rintro rfl
    exact hd hc
  rw [find, List.drop_left, List.findIdx?_append, hnone, List.findIdx?_cons, if_pos (by simp)]
  simp

/-- Behind `front`, the last segment has no separator. -/
theorem find_append_eq_none [BEq α] [LawfulBEq α] {sep : α} (front : List α) {d : List α}
    (hd : sep ∉ d) : find (front ++ d) sep front.length = none := by
  rw [find, List.drop_left, Option.map_eq_none_iff, List.findIdx?_eq_none_iff]
  intro c hc
  rw [beq_eq_false_iff_ne]
  rintro rfl
  exact hd hc

/-- A string ends with the pattern if that is where it is found last. -/
theorem rfind_eq_iff [BEq α] [LawfulBEq α] {s pattern : List α} (h : pattern.length ≤ s.length) :
    rfind s pattern = some (s.length - pattern.length) ↔ pattern <:+ s := by
  have hend : substr s (s.length - pattern.length) pattern.length =
      s.drop (s.length - pattern.length) := by
    apply List.take_of_length_le
    rw [List.length_drop]
    omega
  constructor
  · intro hfind
    obtain ⟨-, hfound⟩ := List.mem_filter.mp (List.mem_of_getLast? hfind)
    rw [beq_iff_eq, hend] at hfound
    exact List.suffix_iff_eq_drop.mpr hfound.symm
  · intro hsuffix
    have hfound := hend.trans (List.suffix_iff_eq_drop.mp hsuffix).symm
    -- Behind this position there is not enough room for the pattern.
    have hlater : (((List.range pattern.length).map (s.length - pattern.length + 1 + ·)).filter
        fun i => substr s i pattern.length == pattern) = [] := by
      rw [List.filter_eq_nil_iff]
      intro i hi heq
      obtain ⟨j, hj, rfl⟩ := List.mem_map.mp hi
      rw [List.mem_range] at hj
      have hlength := congrArg List.length (beq_iff_eq.mp heq)
      rw [substr, List.length_take, List.length_drop] at hlength
      omega
    have hrange : s.length + 1 = s.length - pattern.length + 1 + pattern.length := by omega
    rw [rfind, hrange, List.range_add, List.filter_append, hlater, List.append_nil, List.range_succ,
      List.filter_append, List.filter_cons_of_pos (by rw [hfound]; exact beq_self_eq_true _),
      List.filter_nil, List.getLast?_concat]

/-! ## Joining -/

/-- Joining two runs of segments. -/
theorem joinSegs_append (sep : α) (g : List α) (ds es : List (List α)) :
    joinSegs sep g (ds ++ es) = joinSegs sep (joinSegs sep g ds) es :=
  List.foldl_append

@[simp] theorem joinSegs_nil (sep : α) (g : List α) : joinSegs sep g [] = g := rfl

@[simp] theorem joinSegs_cons (sep : α) (g d : List α) (ds : List (List α)) :
    joinSegs sep g (d :: ds) = joinSegs sep (joinStep sep g d) ds := rfl

/-- Behind a non-empty string every segment gets its separator. -/
theorem joinSegs_of_ne_nil (sep : α) {g : List α} (hg : g ≠ []) (ds : List (List α)) :
    joinSegs sep g ds = g ++ ds.flatMap (sep :: ·) := by
  induction ds generalizing g with
  | nil => simp
  | cons d ds ih =>
    have hlen : g.length ≠ 0 := by simpa using hg
    rw [joinSegs_cons, joinStep, if_pos hlen, ih (by simp)]
    simp

/-- `List.intercalate`, with each separator in front of its segment. -/
theorem intercalate_cons_eq_flatMap (sep : α) (d : List α) (ds : List (List α)) :
    [sep].intercalate (d :: ds) = d ++ ds.flatMap (sep :: ·) := by
  induction ds generalizing d with
  | nil => simp
  | cons e ds ih => simp [ih]

/-- `List.intercalate`, with a separator behind each of the first segments. -/
theorem intercalate_append_eq_flatMap (sep : α) (ds : List (List α)) {es : List (List α)}
    (hes : es ≠ []) :
    [sep].intercalate (ds ++ es) = ds.flatMap (· ++ [sep]) ++ [sep].intercalate es := by
  induction ds with
  | nil => rfl
  | cons d ds ih =>
    rw [List.cons_append, List.intercalate_cons_of_ne_nil (by simp [hes]), ih]
    simp

/-- `List.intercalate`, with each separator behind its segment. -/
theorem intercalate_concat_eq_flatMap (sep : α) (ds : List (List α)) (d : List α) :
    [sep].intercalate (ds ++ [d]) = ds.flatMap (· ++ [sep]) ++ d := by
  induction ds with
  | nil => simp
  | cons e ds ih =>
    rw [List.cons_append, List.intercalate_cons_of_ne_nil (by simp), ih]
    simp

/-- Segments with a separator behind each are cut off a string. -/
theorem splitOn_flatMap_append [BEq α] [LawfulBEq α] {sep : α} {ds : List (List α)}
    (hds : ∀ d ∈ ds, sep ∉ d) (s : List α) :
    (ds.flatMap (· ++ [sep]) ++ s).splitOn sep = ds ++ s.splitOn sep := by
  induction ds with
  | nil => rfl
  | cons d ds ih =>
    obtain ⟨hd, hrest⟩ := List.forall_mem_cons.mp hds
    have hcut : (d :: ds).flatMap (· ++ [sep]) ++ s =
        d ++ sep :: (ds.flatMap (· ++ [sep]) ++ s) := by simp
    rw [hcut, List.splitOn_append_cons_self, List.splitOn_eq_singleton hd, ih hrest]
    rfl

/-- Behind a string only its last segment goes on. -/
theorem splitOn_append_of_concat [BEq α] [LawfulBEq α] {sep : α} {s d : List α}
    {ds : List (List α)} (hs : s.splitOn sep = ds ++ [d]) (t : List α) :
    (s ++ t).splitOn sep = ds ++ (d ++ t).splitOn sep := by
  have hds : ∀ e ∈ ds, sep ∉ e := by
    intro e he
    exact not_mem_of_mem_splitOn (hs ▸ List.mem_append_left [d] he)
  have hjoin : s = ds.flatMap (· ++ [sep]) ++ d := by
    rw [← intercalate_concat_eq_flatMap, ← hs, List.intercalate_splitOn]
  rw [hjoin, List.append_assoc, splitOn_flatMap_append hds]

/-- What is in a segment is in the string. -/
theorem mem_of_mem_splitOn [BEq α] [LawfulBEq α] {sep x : α} {s d : List α}
    (hd : d ∈ s.splitOn sep) (hx : x ∈ d) : x ∈ s := by
  obtain ⟨e, es, hes⟩ := List.exists_cons_of_ne_nil (List.splitOn_ne_nil sep s)
  have hs : s = e ++ es.flatMap (sep :: ·) := by
    rw [← intercalate_cons_eq_flatMap, ← hes, List.intercalate_splitOn]
  rw [hs, List.mem_append, List.mem_flatMap]
  rw [hes, List.mem_cons] at hd
  rcases hd with rfl | hd
  · exact Or.inl hx
  · exact Or.inr ⟨d, hd, List.mem_cons_of_mem _ hx⟩

/-- Joining from the empty string is `List.intercalate` without its leading separators. -/
theorem joinSegs_nil_eq_dropWhile [BEq α] [LawfulBEq α] (sep : α) (ds : List (List α))
    (hds : ∀ d ∈ ds, sep ∉ d) :
    joinSegs sep [] ds = ([sep].intercalate ds).dropWhile (· == sep) := by
  induction ds with
  | nil => simp
  | cons d ds ih =>
    have ih := ih fun e he => hds e (List.mem_cons_of_mem _ he)
    cases d with
    | nil =>
      -- A leading empty segment adds nothing, and its separator is a leading one.
      rw [joinSegs_cons, show joinStep sep [] ([] : List α) = [] from rfl, ih]
      cases ds with
      | nil => simp
      | cons e ds => simp
    | cons a as =>
      have ha : (a == sep) = false := by
        have := hds (a :: as) List.mem_cons_self
        simp only [List.mem_cons, not_or] at this
        simpa using fun e => this.1 e.symm
      rw [joinSegs_cons, show joinStep sep [] (a :: as) = a :: as from rfl,
        joinSegs_of_ne_nil sep (by simp), intercalate_cons_eq_flatMap]
      simp [ha]

/-- A string is the join of its segments, up to leading separators. -/
theorem joinSegs_splitOn [BEq α] [LawfulBEq α] (sep : α) (s : List α) :
    joinSegs sep [] (s.splitOn sep) = s.dropWhile (· == sep) := by
  rw [joinSegs_nil_eq_dropWhile sep _ fun _ => not_mem_of_mem_splitOn, List.intercalate_splitOn]

/-- Only empty segments join to the empty string. -/
theorem joinSegs_nil_eq_nil_iff (sep : α) (ds : List (List α)) :
    joinSegs sep [] ds = [] ↔ ∀ d ∈ ds, d = [] := by
  induction ds with
  | nil => simp
  | cons d ds ih =>
    cases d with
    | nil => simpa [joinStep] using ih
    | cons a as =>
      rw [joinSegs_cons, show joinStep sep [] (a :: as) = a :: as from rfl,
        joinSegs_of_ne_nil sep (by simp)]
      simp

/-- A join from the empty string does not start with a separator. -/
theorem joinSegs_nil_ne_cons [BEq α] [LawfulBEq α] (sep : α) (ds : List (List α))
    (hds : ∀ d ∈ ds, sep ∉ d) (g : List α) : joinSegs sep [] ds ≠ sep :: g := by
  rw [joinSegs_nil_eq_dropWhile sep ds hds]
  intro h
  have hhead := List.head?_dropWhile_not (· == sep) ([sep].intercalate ds)
  rw [h] at hhead
  simp at hhead

/-- The segments of a join from the empty string: the leading empty ones are lost. -/
theorem splitOn_joinSegs_nil [BEq α] [LawfulBEq α] (sep : α) (ds : List (List α))
    (hds : ∀ d ∈ ds, sep ∉ d) :
    (joinSegs sep [] ds).splitOn sep =
      if ds.dropWhile List.isEmpty = [] then [[]] else ds.dropWhile List.isEmpty := by
  induction ds with
  | nil => simp
  | cons d ds ih =>
    cases d with
    | nil =>
      rw [joinSegs_cons, show joinStep sep [] ([] : List α) = [] from rfl,
        ih fun e he => hds e (List.mem_cons_of_mem _ he)]
      simp
    | cons a as =>
      rw [joinSegs_cons, show joinStep sep [] (a :: as) = a :: as from rfl,
        joinSegs_of_ne_nil sep (by simp), ← intercalate_cons_eq_flatMap,
        List.splitOn_intercalate sep hds (by simp)]
      simp

/-- The length of a join behind a non-empty string. -/
theorem length_joinSegs (sep : α) {g : List α} (hg : g ≠ []) (ds : List (List α)) :
    (joinSegs sep g ds).length = g.length + (ds.map fun d => d.length + 1).sum := by
  rw [joinSegs_of_ne_nil sep hg]
  simp [List.length_flatMap]

/-- The separators of a join behind a non-empty string. -/
theorem count_joinSegs [BEq α] [LawfulBEq α] (sep : α) {g : List α} (hg : g ≠ [])
    {ds : List (List α)} (hds : ∀ d ∈ ds, sep ∉ d) :
    (joinSegs sep g ds).count sep = g.count sep + ds.length := by
  have hone : ds.map (fun d => (sep :: d).count sep) = ds.map fun _ => 1 :=
    List.map_congr_left fun d hd => by
      rw [List.count_cons_self, List.count_eq_zero.mpr (hds d hd)]
  rw [joinSegs_of_ne_nil sep hg, List.count_append, List.count_flatMap]
  simp only [Function.comp_def, hone]
  simp

/-- Joining the first `m` segments and then those from `k` on joins them all exactly when no
segment comes twice, or only empty ones in front do. -/
theorem joinSegs_overlap_iff (sep : α) (ds : List (List α)) {k m : ℕ} (hk : k ≤ m)
    (hm : m ≤ ds.length) :
    joinSegs sep (joinSegs sep [] (ds.take m)) (ds.drop k) = joinSegs sep [] ds ↔
      k = m ∨ ∀ d ∈ ds.take m, d = [] := by
  have hcut : joinSegs sep [] ds = joinSegs sep (joinSegs sep [] (ds.take m)) (ds.drop m) := by
    rw [← joinSegs_append, List.take_append_drop]
  have hdrop : ds.drop k = (ds.drop k).take (m - k) ++ ds.drop m := by
    conv_lhs => rw [← List.take_append_drop (m - k) (ds.drop k)]
    rw [List.drop_drop, Nat.add_sub_cancel' hk]
  rw [hcut, hdrop]
  by_cases hempty : ∀ d ∈ ds.take m, d = []
  · -- The first `m` segments are empty, and so are those of them that come twice.
    have hg : joinSegs sep [] (ds.take m) = [] := (joinSegs_nil_eq_nil_iff sep _).mpr hempty
    have htwice : joinSegs sep [] ((ds.drop k).take (m - k)) = [] := by
      refine (joinSegs_nil_eq_nil_iff sep _).mpr fun d hd => hempty d ?_
      rw [List.take_drop, Nat.add_sub_cancel' hk] at hd
      exact List.mem_of_mem_drop hd
    rw [hg, joinSegs_append, htwice]
    exact iff_of_true rfl (Or.inr hempty)
  · -- The join is longer by what comes twice.
    have hg : joinSegs sep [] (ds.take m) ≠ [] := fun h =>
      hempty ((joinSegs_nil_eq_nil_iff sep _).mp h)
    constructor
    · intro h
      have hlen := congrArg List.length h
      rw [length_joinSegs sep hg, length_joinSegs sep hg, List.map_append, List.sum_append] at hlen
      have hle := List.length_le_sum_of_one_le
        (((ds.drop k).take (m - k)).map fun d => d.length + 1)
        (fun n hn => by obtain ⟨d, -, rfl⟩ := List.mem_map.mp hn; omega)
      simp only [List.length_map, List.length_take, List.length_drop] at hle
      exact Or.inl (by omega)
    · rintro (rfl | h)
      · simp
      · exact absurd h hempty

/-- A text that does not begin with a separator has none to drop. -/
theorem dropWhile_of_head?_ne [BEq α] [LawfulBEq α] {sep : α} {s : List α}
    (h : s.head? ≠ some sep) : s.dropWhile (· == sep) = s := by
  cases s with
  | nil => rfl
  | cons c rest =>
    have hc : c ≠ sep := fun heq => h (congrArg some heq)
    exact List.dropWhile_cons_of_neg (by simpa using hc)

/-- What is left of a list behind the first `k` elements begins with element `k`. -/
theorem of_drop_eq_cons {l rest : List α} {k : ℕ} {x : α} (h : l.drop k = x :: rest) :
    k < l.length ∧ l[k]? = some x ∧ l.drop (k + 1) = rest := by
  have hx : l[k]? = some x :=
    calc l[k]? = (l.drop k)[0]? := by rw [List.getElem?_drop, Nat.add_zero]
      _ = some x := by rw [h, List.getElem?_cons_zero]
  obtain ⟨hlt, -⟩ := List.getElem?_eq_some_iff.mp hx
  refine ⟨hlt, hx, ?_⟩
  rw [← List.tail_drop, h, List.tail_cons]

/-- A list of more than two elements ends in three. -/
theorem exists_eq_append_three {l : List α} (h : 2 < l.length) :
    ∃ init a b c, l = init ++ [a, b, c] := by
  refine ⟨l.take (l.length - 3), l.get ⟨l.length - 3, by omega⟩, l.get ⟨l.length - 2, by omega⟩,
    l.get ⟨l.length - 1, by omega⟩, ?_⟩
  conv_lhs => rw [← List.take_append_drop (l.length - 3) l]
  congr 1
  apply List.ext_getElem
  · simp only [List.length_drop, List.length_cons, List.length_nil]; omega
  · intro i h₁ h₂
    simp only [List.length_cons, List.length_nil] at h₂
    rw [List.getElem_drop]
    rcases i with _ | _ | _ | i
    · simp
    · simp [show l.length - 3 + 1 = l.length - 2 by omega]
    · simp [show l.length - 3 + 2 = l.length - 1 by omega]
    · omega

end Libgetar.Lib
