import Mathlib

/-!
# Orbits of partial functions

`orbit f a k` is where `k` steps of a partial function lead from `a`, if they are all defined. An
orbit in a finite set ends exactly if it does not return to a point (`ends_iff_not_returns`), and
one whose steps all go up in a strict order does not return (`not_returns_of_lt`).
-/

namespace Libgetar.Lib

variable {α : Type*} {f : α → Option α} {a b : α}

/-- Where `k` steps lead. -/
def orbit (f : α → Option α) (a : α) : ℕ → Option α
  | 0 => some a
  | k + 1 => (orbit f a k).bind f

/-- Some point is passed twice. -/
def Returns (f : α → Option α) (a : α) : Prop :=
  ∃ i j b, i < j ∧ orbit f a i = some b ∧ orbit f a j = some b

/-- The orbit goes on from each of its points. -/
theorem orbit_add (f : α → Option α) (a : α) (i k : ℕ) :
    orbit f a (i + k) = (orbit f a i).bind fun b => orbit f b k := by
  induction k with
  | zero =>
    rw [Nat.add_zero]
    cases orbit f a i with
    | none => rfl
    | some b => rfl
  | succ k ih =>
    rw [← Nat.add_assoc, orbit, ih, Option.bind_assoc]
    rfl

/-- An orbit that has ended stays so. -/
theorem orbit_eq_none_of_le {i j : ℕ} (h : orbit f a i = none) (hij : i ≤ j) :
    orbit f a j = none := by
  obtain ⟨k, rfl⟩ := Nat.exists_eq_add_of_le hij
  rw [orbit_add, h]
  rfl

/-- An orbit that passes a point twice passes it again and again. -/
theorem orbit_periodic {i d : ℕ} (hi : orbit f a i = some b) (hd : orbit f a (i + d) = some b)
    (m : ℕ) : orbit f a (i + m * d) = some b := by
  have hreturn : orbit f b d = some b := by
    rw [orbit_add, hi] at hd
    exact hd
  induction m with
  | zero =>
    rw [Nat.zero_mul]
    exact hi
  | succ m ih =>
    rw [Nat.succ_mul, ← Nat.add_assoc, orbit_add, ih]
    exact hreturn

/-- An orbit that ends does not return. -/
theorem not_returns_of_ends {k : ℕ} (hk : orbit f a k = none) : ¬Returns f a := by
  rintro ⟨i, j, b, hij, hi, hj⟩
  obtain ⟨d, rfl⟩ := Nat.exists_eq_add_of_le hij.le
  have hfar : k ≤ i + k * d := by
    have hpos : 1 ≤ d := by omega
    calc k = k * 1 := (Nat.mul_one k).symm
      _ ≤ k * d := Nat.mul_le_mul_left k hpos
      _ ≤ i + k * d := Nat.le_add_left _ _
  have hsome := orbit_periodic hi hj k
  rw [orbit_eq_none_of_le hk hfar] at hsome
  cases hsome

/-- In a finite set, an orbit ends exactly if it does not return. -/
theorem ends_iff_not_returns {s : Set α} (hs : s.Finite)
    (hmem : ∀ k b, orbit f a k = some b → (f b).isSome → b ∈ s) :
    (∃ k, orbit f a k = none) ↔ ¬Returns f a := by
  constructor
  · rintro ⟨k, hk⟩
    exact not_returns_of_ends hk
  · intro hnot
    by_contra hends
    simp only [not_exists, Option.eq_none_iff_forall_ne_some, ne_eq, not_forall, not_not] at hends
    choose point hpoint using hends
    have hin (k : ℕ) : point k ∈ s := by
      refine hmem k _ (hpoint k) ?_
      have hnext := hpoint (k + 1)
      rw [orbit, hpoint k, Option.bind_some] at hnext
      rw [hnext]
      rfl
    -- Two of infinitely many points are the same.
    have := hs.to_subtype
    obtain ⟨i, j, hne, heq⟩ := Finite.exists_ne_map_eq_of_infinite fun k => (⟨point k, hin k⟩ : s)
    have heq : point i = point j := congrArg Subtype.val heq
    rcases Nat.lt_or_gt_of_ne hne with hlt | hlt
    · exact hnot ⟨i, j, point i, hlt, hpoint i, heq ▸ hpoint j⟩
    · exact hnot ⟨j, i, point j, hlt, hpoint j, heq ▸ hpoint i⟩

/-- An orbit whose steps all go up does not return. -/
theorem not_returns_of_lt {r : α → α → Prop} [Std.Irrefl r] [IsTrans α r]
    (h : ∀ k b c, orbit f a k = some b → f b = some c → r b c) : ¬Returns f a := by
  -- Every later point is above.
  have hup (i : ℕ) {b : α} (hi : orbit f a i = some b) (d : ℕ) :
      ∀ {c : α}, orbit f a (i + (d + 1)) = some c → r b c := by
    induction d with
    | zero =>
      intro c hc
      rw [Nat.zero_add, orbit, hi] at hc
      exact h i b c hi hc
    | succ d ih =>
      intro c hc
      rw [← Nat.add_assoc, orbit] at hc
      obtain ⟨c', hc', hstep⟩ := Option.bind_eq_some_iff.mp hc
      exact IsTrans.trans _ _ _ (ih hc') (h _ c' c hc' hstep)
  rintro ⟨i, j, b, hij, hi, hj⟩
  obtain ⟨d, rfl⟩ := Nat.exists_eq_add_of_lt hij
  exact Std.Irrefl.irrefl b (hup i hi d hj)

end Libgetar.Lib
