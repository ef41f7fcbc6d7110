import Mathlib

/-!
# Loops that an exception leaves

`attempt f s xs` runs `f` over a list with a state. The first exception ends the loop, and the state
is the one in which it was raised.

Where a call is successful exactly if a condition holds of its argument and a block of other calls is
successful, and then does what these do, a loop does what the loop over all the blocks does
(`attempt_blocks`). A loop inside a loop has a block for each turn of the outer one, and where the blocks
are single calls, the other loop is over the entries for the arguments (`attempt_entries`).

Where the state is lost with the exception, the loop is `List.foldlM` over `Except`, and the same is
said of it in `foldlM_eq_ok_iff`.
-/

namespace Libgetar.Lib

universe v

variable {σ α β γ ε : Type*}

/-- `for x in xs: f(x)`. -/
def attempt (f : σ → α → σ × Option ε) : σ → List α → σ × Option ε
  | s, [] => (s, none)
  | s, x :: xs =>
    match f s x with
    | (s, none) => attempt f s xs
    | (s, some e) => (s, some e)

variable {f : σ → α → σ × Option ε}

/-- The first call is successful. -/
theorem attempt_cons_of_none {s : σ} {x : α} (h : (f s x).2 = none) (xs : List α) :
    attempt f s (x :: xs) = attempt f (f s x).1 xs := by
  rw [attempt]
  generalize f s x = result at h ⊢
  obtain ⟨s', e⟩ := result
  obtain rfl : e = none := h
  rfl

/-- The first call raises an exception. -/
theorem attempt_cons_of_ne_none {s : σ} {x : α} (h : (f s x).2 ≠ none) (xs : List α) :
    attempt f s (x :: xs) = f s x := by
  rw [attempt]
  generalize f s x = result at h ⊢
  obtain ⟨s', e⟩ := result
  cases e with
  | none => exact absurd rfl h
  | some e => rfl

/-- A loop over two lists. -/
theorem attempt_append (s : σ) (xs ys : List α) : attempt f s (xs ++ ys) =
    if (attempt f s xs).2 = none then attempt f (attempt f s xs).1 ys else attempt f s xs := by
  induction xs generalizing s with
  | nil => rfl
  | cons x xs ih =>
    by_cases h : (f s x).2 = none
    · rw [List.cons_append, attempt_cons_of_none h, attempt_cons_of_none h, ih]
    · rw [List.cons_append, attempt_cons_of_ne_none h, attempt_cons_of_ne_none h, if_neg h]

/-- A loop of one call. -/
theorem attempt_singleton (s : σ) (x : α) : attempt f s [x] = f s x := by
  by_cases h : (f s x).2 = none
  · rw [attempt_cons_of_none h]
    exact Prod.ext rfl h.symm
  · exact attempt_cons_of_ne_none h []

/-- What no call raises, the loop does not raise. -/
theorem attempt_ne_some {e : ε} {xs : List α} (h : ∀ x ∈ xs, ∀ s, (f s x).2 ≠ some e) (s : σ) :
    (attempt f s xs).2 ≠ some e := by
  induction xs generalizing s with
  | nil => exact fun h => by cases h
  | cons x xs ih =>
    obtain ⟨hx, hxs⟩ := List.forall_mem_cons.mp h
    by_cases hnone : (f s x).2 = none
    · rw [attempt_cons_of_none hnone]
      exact ih hxs _
    · rw [attempt_cons_of_ne_none hnone]
      exact hx s

variable {τ ε' : Type*} {g : τ → β → τ × Option ε'} {block : α → List β} {R : σ → τ → Prop}
  {P : α → Prop}

/-- A loop each call of which does what a block of other calls does, if a condition holds of its
argument. -/
theorem attempt_blocks {xs : List α}
    (hstep : ∀ x ∈ xs, ∀ s t, R s t →
      ((f s x).2 = none ↔ P x ∧ (attempt g t (block x)).2 = none) ∧
        ((f s x).2 = none → R (f s x).1 (attempt g t (block x)).1))
    {s : σ} {t : τ} (hR : R s t) :
    ((attempt f s xs).2 = none ↔ (∀ x ∈ xs, P x) ∧ (attempt g t (xs.flatMap block)).2 = none) ∧
      ((attempt f s xs).2 = none → R (attempt f s xs).1 (attempt g t (xs.flatMap block)).1) := by
  induction xs generalizing s t with
  | nil => exact ⟨iff_of_true rfl ⟨List.forall_mem_nil P, rfl⟩, fun _ => hR⟩
  | cons x xs ih =>
    obtain ⟨hx, hxs⟩ := List.forall_mem_cons.mp hstep
    obtain ⟨hnone, hnext⟩ := hx s t hR
    rw [List.flatMap_cons, List.forall_mem_cons, attempt_append]
    by_cases h : (f s x).2 = none
    · obtain ⟨hP, hblock⟩ := hnone.mp h
      rw [attempt_cons_of_none h, if_pos hblock, and_iff_right hP]
      exact ih hxs (hnext h)
    · -- The block of the first call is not successful.
      rw [attempt_cons_of_ne_none h]
      refine ⟨iff_of_false h fun hall => ?_, fun hsuccess => absurd hsuccess h⟩
      by_cases hblock : (attempt g t (block x)).2 = none
      · exact h (hnone.mpr ⟨hall.1.1, hblock⟩)
      · rw [if_neg hblock] at hall
        exact hblock hall.2

/-- A loop each call of which does what another call does for an entry, if a condition holds of its
argument. -/
theorem attempt_entries {entry : α → β} {xs : List α}
    (hstep : ∀ x ∈ xs, ∀ s t, R s t → ((f s x).2 = none ↔ P x ∧ (g t (entry x)).2 = none) ∧
      ((f s x).2 = none → R (f s x).1 (g t (entry x)).1))
    {s : σ} {t : τ} (hR : R s t) :
    ((attempt f s xs).2 = none ↔ (∀ x ∈ xs, P x) ∧ (attempt g t (xs.map entry)).2 = none) ∧
      ((attempt f s xs).2 = none → R (attempt f s xs).1 (attempt g t (xs.map entry)).1) := by
  rw [List.map_eq_flatMap]
  refine attempt_blocks (fun x hx s t hst => ?_) hR
  rw [attempt_singleton]
  exact hstep x hx s t hst

/-! ## Loops whose state is lost -/

/-- Two calls, one after the other. -/
theorem bind_eq_ok_iff {ρ τ : Type v} {m : Except ε ρ} {g : ρ → Except ε τ} {b : τ} :
    m >>= g = .ok b ↔ ∃ a, m = .ok a ∧ g a = .ok b := by
  cases m with
  | error e => exact iff_of_false (by rintro ⟨⟩) (by rintro ⟨a, ⟨⟩, -⟩)
  | ok a =>
    constructor
    · intro h
      exact ⟨a, rfl, h⟩
    · rintro ⟨a', ha, h⟩
      obtain rfl := Except.ok.inj ha
      exact h

/-- A call whose result is changed. -/
theorem map_eq_ok_iff {ρ τ : Type*} {m : Except ε ρ} {f : ρ → τ} {b : τ} :
    m.map f = .ok b ↔ ∃ a, m = .ok a ∧ f a = b := by
  cases m with
  | error e => exact iff_of_false (by rintro ⟨⟩) (by rintro ⟨a, ⟨⟩, -⟩)
  | ok a =>
    constructor
    · intro h
      exact ⟨a, rfl, Except.ok.inj h⟩
    · rintro ⟨a', ha, h⟩
      rw [Except.ok.inj ha, ← h]
      rfl

/-- What no call raises, the loop does not raise. -/
theorem foldlM_ne_error {next : σ → α → Except ε σ} {e : ε} {xs : List α}
    (h : ∀ x ∈ xs, ∀ s, next s x ≠ .error e) (s : σ) : xs.foldlM next s ≠ .error e := by
  induction xs generalizing s with
  | nil => exact fun h => by cases h
  | cons x xs ih =>
    obtain ⟨hx, hxs⟩ := List.forall_mem_cons.mp h
    rw [List.foldlM_cons]
    cases hnext : next s x with
    | ok s' => exact ih hxs s'
    | error e' => exact fun heq => hx s (hnext.trans heq)

/-- A loop whose calls are successful exactly under a condition. -/
theorem foldlM_eq_ok_iff {next : σ → α → Except ε σ} {after : σ → α → σ} {xs : List α}
    (hnext : ∀ x ∈ xs, ∀ s s', next s x = .ok s' ↔ P x ∧ s' = after s x) {s s' : σ} :
    xs.foldlM next s = .ok s' ↔ (∀ x ∈ xs, P x) ∧ s' = xs.foldl after s := by
  induction xs generalizing s with
  | nil =>
    rw [List.foldlM_nil, List.foldl_nil, and_iff_right (List.forall_mem_nil P)]
    exact Except.ok.injEq s s' ▸ eq_comm
  | cons x xs ih =>
    obtain ⟨hx, hxs⟩ := List.forall_mem_cons.mp hnext
    rw [List.foldlM_cons, bind_eq_ok_iff, List.forall_mem_cons, List.foldl_cons]
    simp only [hx, ih hxs]
    constructor
    · rintro ⟨s₁, ⟨hP, rfl⟩, hall, hs'⟩
      exact ⟨⟨hP, hall⟩, hs'⟩
    · rintro ⟨⟨hP, hall⟩, hs'⟩
      exact ⟨_, ⟨hP, rfl⟩, hall, hs'⟩

/-- The results of calls that are successful exactly under a condition. -/
theorem mapM_eq_ok_iff {g : α → Except ε β} {value : α → β}
    (hg : ∀ x y, g x = .ok y ↔ P x ∧ y = value x) {xs : List α} {ys : List β} :
    xs.mapM g = .ok ys ↔ (∀ x ∈ xs, P x) ∧ ys = xs.map value := by
  induction xs generalizing ys with
  | nil =>
    rw [List.mapM_nil, List.map_nil, and_iff_right (List.forall_mem_nil P)]
    exact Except.ok.injEq [] ys ▸ eq_comm
  | cons x xs ih =>
    rw [List.mapM_cons, bind_eq_ok_iff, List.forall_mem_cons, List.map_cons]
    simp only [hg, bind_eq_ok_iff, ih]
    constructor
    · rintro ⟨y, ⟨hP, rfl⟩, ys', ⟨hall, rfl⟩, heq⟩
      exact ⟨⟨hP, hall⟩, (Except.ok.inj heq).symm⟩
    · rintro ⟨⟨hP, hall⟩, rfl⟩
      exact ⟨_, ⟨hP, rfl⟩, _, ⟨hall, rfl⟩, rfl⟩

end Libgetar.Lib
