import Libgetar.Lib.StdMap

/-!
# Logs in which the last write wins

A log is a list of keys with values, the oldest first, and `lastWrite log k` is the value of the
last entry with key `k`. This is what a store is for: whatever it keeps, a lookup gives the last
write. A `std::map` into which the entries of a log are inserted in order is such a store
(`find?_insertAll`).
-/

namespace Libgetar.Lib

variable {κ ν μ : Type*} [DecidableEq κ]

/-- The value of the last entry of the log with key `k`. -/
def lastWrite (log : List (κ × ν)) (k : κ) : Option ν :=
  log.foldl (fun found e => if k = e.1 then some e.2 else found) none

@[simp] theorem lastWrite_nil (k : κ) : lastWrite ([] : List (κ × ν)) k = none := rfl

/-- One more entry in the log. -/
@[simp] theorem lastWrite_concat (log : List (κ × ν)) (e : κ × ν) (k : κ) :
    lastWrite (log ++ [e]) k = if k = e.1 then some e.2 else lastWrite log k := by
  simp only [lastWrite, List.foldl_append, List.foldl_cons, List.foldl_nil]

/-- A value that is found was written. -/
theorem mem_of_lastWrite_eq_some {k : κ} {v : ν} :
    ∀ {log : List (κ × ν)}, lastWrite log k = some v → (k, v) ∈ log := by
  intro log
  induction log using List.reverseRecOn with
  | nil => simp
  | append_singleton log e ih =>
    rw [lastWrite_concat]
    intro h
    split at h
    · next hk =>
      cases h
      exact List.mem_append_right _ (by rw [hk]; exact List.mem_singleton_self _)
    · exact List.mem_append_left _ (ih h)

/-- A key is found when it has an entry. -/
theorem lastWrite_eq_none_iff {k : κ} :
    ∀ {log : List (κ × ν)}, lastWrite log k = none ↔ k ∉ log.map Prod.fst := by
  intro log
  induction log using List.reverseRecOn with
  | nil => simp
  | append_singleton log e ih =>
    rw [lastWrite_concat, List.map_append, List.mem_append, not_or]
    split
    · next hk => simp [hk]
    · next hk => simp [ih, hk]

/-- A key that has an entry is found. -/
theorem exists_lastWrite {k : κ} {log : List (κ × ν)} (h : k ∈ log.map Prod.fst) :
    ∃ v, lastWrite log k = some v := by
  rw [← Option.ne_none_iff_exists', ne_eq, lastWrite_eq_none_iff, not_not]
  exact h

/-- An entry whose key does not come again is the last write. -/
theorem lastWrite_append_cons (log : List (κ × ν)) {k : κ} (v : ν) {log' : List (κ × ν)}
    (h : k ∉ log'.map Prod.fst) : lastWrite (log ++ (k, v) :: log') k = some v := by
  induction log' using List.reverseRecOn with
  | nil => rw [lastWrite_concat, if_pos rfl]
  | append_singleton log' e ih =>
    rw [List.map_append, List.mem_append, not_or, List.map_singleton, List.mem_singleton] at h
    rw [← List.cons_append, ← List.append_assoc, lastWrite_concat, if_neg h.2, ih h.1]

/-- The last write is what a search from the end finds. -/
theorem lastWrite_eq_find?_reverse (log : List (κ × ν)) (k : κ) :
    lastWrite log k = (log.reverse.find? fun e => decide (k = e.1)).map Prod.snd := by
  induction log using List.reverseRecOn with
  | nil => rfl
  | append_singleton log e ih =>
    rw [lastWrite_concat, List.reverse_append, List.reverse_singleton, List.singleton_append, ih,
      List.find?_cons]
    by_cases hk : k = e.1
    · rw [if_pos hk, decide_eq_true hk, Option.map_some]
    · rw [if_neg hk, decide_eq_false hk]

/-- A log in which the value of an entry depends on its key. -/
theorem lastWrite_map_key (f : κ → ν) (ks : List κ) (k : κ) :
    lastWrite (ks.map fun k' => (k', f k')) k = if k ∈ ks then some (f k) else none := by
  induction ks using List.reverseRecOn with
  | nil => rfl
  | append_singleton ks k' ih =>
    rw [List.map_append, List.map_singleton, lastWrite_concat, ih]
    by_cases hk : k = k'
    · rw [if_pos hk, hk, if_pos (List.mem_append_right _ List.mem_cons_self)]
    · rw [if_neg hk]
      exact if_congr (by rw [List.mem_append, List.mem_singleton, or_iff_left hk]) rfl rfl

/-- Keys that are renamed. -/
theorem lastWrite_map_key_injective [DecidableEq μ] {f : κ → μ} (hf : Function.Injective f)
    (log : List (κ × ν)) (k : κ) :
    lastWrite (log.map fun e => (f e.1, e.2)) (f k) = lastWrite log k := by
  induction log using List.reverseRecOn with
  | nil => rfl
  | append_singleton log e ih =>
    rw [List.map_append, List.map_singleton, lastWrite_concat, lastWrite_concat, ih]
    exact if_congr hf.eq_iff rfl rfl

/-- Changing the values of a log. -/
theorem lastWrite_map (f : ν → μ) (log : List (κ × ν)) (k : κ) :
    lastWrite (log.map fun e => (e.1, f e.2)) k = (lastWrite log k).map f := by
  induction log using List.reverseRecOn with
  | nil => rfl
  | append_singleton log e ih =>
    rw [List.map_append, List.map_singleton, lastWrite_concat, lastWrite_concat, ih]
    split
    · rfl
    · rfl

namespace StdMap

variable {r : κ → κ → Bool} [StrictTotal r]

/-- All the entries of a log are inserted in order. -/
def insertAll (m : StdMap κ ν r) (log : List (κ × ν)) : StdMap κ ν r :=
  log.foldl (fun m e => m.insert e.1 e.2) m

/-- A map made from a log finds the last write. -/
theorem find?_insertAll (log : List (κ × ν)) (k : κ) :
    ((empty : StdMap κ ν r).insertAll log).find? k = lastWrite log k := by
  induction log using List.reverseRecOn with
  | nil => rfl
  | append_singleton log e ih =>
    simp only [insertAll] at ih
    simp only [insertAll, List.foldl_append, List.foldl_cons, List.foldl_nil, find?_insert, ih,
      lastWrite_concat]

end StdMap

end Libgetar.Lib
