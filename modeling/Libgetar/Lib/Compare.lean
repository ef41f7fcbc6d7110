import Libgetar.Lib.Bytes

/-!
# Comparators

The ordered containers of the C++ library take a comparator, a Boolean `r a b` that says that `a`
is below `b`, and treat two keys as the same when neither is below the other. `StrictTotal` is what
a container needs of its comparator in order to keep exactly one entry for each key: the comparator
is irreflexive and transitive, and two keys that it does not separate are equal.

The comparators here are the ones that programs build: natural numbers (`natLt`), lexicographic
pairs (`lexLt`), a comparator of a key's projection (`StrictTotal.comap`), and the order of byte
strings (`bytesLt`), which compares the bytes as unsigned values.

A list is sorted by a key of its elements (`sortBy`), which leaves it as it is exactly when the keys
are in order (`sortBy_eq_self_iff`).
-/

namespace Libgetar.Lib

/-- The laws of a comparator whose incomparable keys are equal. -/
class StrictTotal {κ : Type*} (r : κ → κ → Bool) : Prop where
  /-- No key is below itself. -/
  irrefl : ∀ a, r a a = false
  /-- The comparator is transitive. -/
  trans : ∀ a b c, r a b = true → r b c = true → r a c = true
  /-- Keys that are not separated are equal. -/
  eq_of_not_lt : ∀ a b, r a b = false → r b a = false → a = b

namespace StrictTotal

variable {κ : Type*} {r : κ → κ → Bool} [StrictTotal r]

/-- Two keys are not below each other. -/
theorem asymm {a b : κ} (h : r a b = true) : r b a = false := by
  by_contra hc
  have hba : r b a = true := by simpa using hc
  have haa := trans a b a h hba
  rw [irrefl (r := r) a] at haa
  exact Bool.noConfusion haa

/-- A key below another differs from it. -/
theorem ne {a b : κ} (h : r a b = true) : a ≠ b := by
  rintro rfl
  rw [irrefl (r := r) a] at h
  exact Bool.noConfusion h

/-- Exactly one of the three relations holds between two keys. -/
theorem trichotomy (a b : κ) :
    (r a b = true ∧ a ≠ b ∧ r b a = false) ∨ (r a b = false ∧ a = b ∧ r b a = false) ∨
      (r a b = false ∧ a ≠ b ∧ r b a = true) := by
  rcases hab : r a b with _ | _
  · rcases hba : r b a with _ | _
    · exact Or.inr (Or.inl ⟨rfl, eq_of_not_lt a b hab hba, rfl⟩)
    · exact Or.inr (Or.inr ⟨rfl, (ne hba).symm, rfl⟩)
  · exact Or.inl ⟨rfl, ne hab, asymm hab⟩

/-- The comparator of an injective projection satisfies the laws. -/
theorem comap {α : Type*} (f : α → κ) (hf : Function.Injective f) :
    StrictTotal fun a b => r (f a) (f b) where
  irrefl a := irrefl (f a)
  trans a b c := trans (f a) (f b) (f c)
  eq_of_not_lt a b hab hba := hf (eq_of_not_lt (f a) (f b) hab hba)

end StrictTotal

/-- The comparator of natural numbers. -/
def natLt (a b : ℕ) : Bool := decide (a < b)

instance : StrictTotal natLt where
  irrefl a := by simp [natLt]
  trans a b c hab hbc := by simp only [natLt, decide_eq_true_eq] at *; omega
  eq_of_not_lt a b hab hba := by simp only [natLt, decide_eq_false_iff_not] at *; omega

/-- The lexicographic comparator of pairs. -/
def lexLt {α β : Type*} (r : α → α → Bool) (s : β → β → Bool) (a b : α × β) : Bool :=
  r a.1 b.1 || (!r b.1 a.1 && s a.2 b.2)

instance {α β : Type*} (r : α → α → Bool) (s : β → β → Bool) [StrictTotal r]
    [StrictTotal s] : StrictTotal (lexLt r s) where
  irrefl a := by simp [lexLt, StrictTotal.irrefl]
  trans := by
    rintro ⟨a₁, a₂⟩ ⟨b₁, b₂⟩ ⟨c₁, c₂⟩ hab hbc
    have h₁ := StrictTotal.trans (r := r) a₁ b₁ c₁
    have h₂ := StrictTotal.trans (r := s) a₂ b₂ c₂
    simp only [lexLt, Bool.or_eq_true, Bool.and_eq_true, Bool.not_eq_true'] at *
    -- The first components decide, unless they are equal in one of the two steps.
    rcases StrictTotal.trichotomy (r := r) a₁ b₁ with ⟨hx, -, -⟩ | ⟨hx, rfl, hx'⟩ | ⟨hx, -, hx'⟩
    · rcases StrictTotal.trichotomy (r := r) b₁ c₁ with ⟨hy, -, -⟩ | ⟨hy, rfl, -⟩ | ⟨hy, -, hy'⟩
      · exact Or.inl (h₁ hx hy)
      · exact Or.inl hx
      · simp [hy, hy'] at hbc
    · simp only [hx, Bool.false_eq_true, true_and, false_or] at hab
      rcases hbc with hbc | ⟨hbc, hbc'⟩
      · exact Or.inl hbc
      · exact Or.inr ⟨hbc, h₂ hab hbc'⟩
    · simp [hx, hx'] at hab
  eq_of_not_lt := by
    rintro ⟨a₁, a₂⟩ ⟨b₁, b₂⟩ hab hba
    simp only [lexLt, Bool.or_eq_false_iff, Bool.and_eq_false_iff, Bool.not_eq_false'] at hab hba
    obtain rfl : a₁ = b₁ := StrictTotal.eq_of_not_lt _ _ hab.1 hba.1
    have hirr := StrictTotal.irrefl (r := r) a₁
    simp only [hirr, Bool.false_eq_true, false_or, true_and] at hab hba
    rw [StrictTotal.eq_of_not_lt _ _ hab hba]

/-- `operator<` of byte strings: the first differing byte decides, and a proper prefix is below. -/
def bytesLt (a b : Bytes) : Bool := decide (a < b)

instance : StrictTotal bytesLt where
  irrefl a := by simp only [bytesLt, decide_eq_false_iff_not]; exact List.lt_irrefl a
  trans a b c hab hbc := by
    simp only [bytesLt, decide_eq_true_eq] at *
    exact List.lt_trans hab hbc
  eq_of_not_lt a b hab hba := by
    simp only [bytesLt, decide_eq_false_iff_not, List.not_lt] at *
    exact List.le_antisymm hba hab

/-- A list that is in the order of one comparator is in that of another one exactly when the other
one says what the first one says. -/
theorem pairwise_iff_of_sorted {κ : Type*} {r s : κ → κ → Bool} [StrictTotal r] {xs : List κ}
    (h : xs.Pairwise fun a b => r a b = true) : xs.Pairwise (fun a b => s a b = true) ↔
      ∀ a ∈ xs, ∀ b ∈ xs, r a b = true → s a b = true := by
  constructor
  · intro hs a ha b hb hab
    obtain ⟨i, hi, rfl⟩ := List.getElem_of_mem ha
    obtain ⟨j, hj, rfl⟩ := List.getElem_of_mem hb
    rcases lt_trichotomy i j with hij | rfl | hij
    · exact List.pairwise_iff_getElem.mp hs i j hi hj hij
    · exact absurd rfl (StrictTotal.ne hab)
    · have hba := List.pairwise_iff_getElem.mp h j i hj hi hij
      rw [StrictTotal.asymm hba] at hab
      exact Bool.noConfusion hab
  · intro hall
    exact h.imp_of_mem fun {a b} ha hb hab => hall a ha b hb hab

/-! ## Sorting by a key -/

section
variable {α κ : Type*} {r : κ → κ → Bool} {f : α → κ} {xs ys : List α}

/-- A stable sort by a key. -/
def sortBy (r : κ → κ → Bool) (f : α → κ) (xs : List α) : List α :=
  xs.insertionSort fun a b => r (f b) (f a) = false

theorem mem_sortBy {x : α} : x ∈ sortBy r f xs ↔ x ∈ xs := List.mem_insertionSort _

theorem nodup_sortBy (h : xs.Nodup) : (sortBy r f xs).Nodup :=
  (List.perm_insertionSort _ xs).nodup_iff.mpr h

variable [StrictTotal r]

/-- Of two elements one is not above the other. -/
theorem total_not_above : Std.Total fun a b : α => r (f b) (f a) = false where
  total a b := by
    rcases hba : r (f b) (f a) with - | -
    · exact Or.inl rfl
    · exact Or.inr (StrictTotal.asymm hba)

theorem isTrans_not_above : IsTrans α fun a b => r (f b) (f a) = false where
  trans a b c hab hbc := by
    rcases StrictTotal.trichotomy (r := r) (f a) (f b) with ⟨hlt, -, -⟩ | ⟨-, heq, -⟩ | ⟨-, -, hgt⟩
    · rcases StrictTotal.trichotomy (r := r) (f b) (f c) with ⟨hlt', -, -⟩ | ⟨-, heq', -⟩ | ⟨-, -, hgt⟩
      · exact StrictTotal.asymm (StrictTotal.trans _ _ _ hlt hlt')
      · rw [← heq']
        exact hab
      · rw [hgt] at hbc
        exact Bool.noConfusion hbc
    · rw [heq]
      exact hbc
    · rw [hgt] at hab
      exact Bool.noConfusion hab

/-- What is sorted is in order. -/
theorem pairwise_sortBy (xs : List α) : (sortBy r f xs).Pairwise fun a b => r (f b) (f a) = false := by
  have htotal : Std.Total fun a b : α => r (f b) (f a) = false := total_not_above
  have htrans : IsTrans α fun a b => r (f b) (f a) = false := isTrans_not_above
  exact List.pairwise_insertionSort _ xs

/-- A sort leaves the lists that are in order, and no others. -/
theorem sortBy_eq_self_iff (hinj : ∀ a ∈ xs, ∀ b ∈ xs, f a = f b → a = b) (hnodup : xs.Nodup) :
    sortBy r f xs = xs ↔ xs.Pairwise fun a b => r (f a) (f b) = true := by
  constructor
  · intro h
    have hsorted := pairwise_sortBy (r := r) (f := f) xs
    rw [h] at hsorted
    refine (hsorted.and hnodup).imp_of_mem fun {a b} ha hb ⟨hab, hne⟩ => ?_
    rcases StrictTotal.trichotomy (r := r) (f a) (f b) with ⟨hlt, -, -⟩ | ⟨-, heq, -⟩ | ⟨-, -, hgt⟩
    · exact hlt
    · exact absurd (hinj a ha b hb heq) hne
    · rw [hgt] at hab
      exact Bool.noConfusion hab
  · intro h
    exact (h.imp fun hab => StrictTotal.asymm hab).insertionSort_eq

/-- The order that the elements come in does not matter to a sort when their keys are different. -/
theorem sortBy_perm (hinj : ∀ a ∈ xs, ∀ b ∈ xs, f a = f b → a = b) (h : xs.Perm ys) :
    sortBy r f xs = sortBy r f ys := by
  have hsame : (sortBy r f xs).Perm (sortBy r f ys) :=
    ((List.perm_insertionSort _ xs).trans h).trans (List.perm_insertionSort _ ys).symm
  refine List.Perm.eq_of_pairwise (fun a b ha hb hab hba => ?_) (pairwise_sortBy xs)
    (pairwise_sortBy ys) hsame
  refine hinj a (mem_sortBy.mp ha) b (h.mem_iff.mpr (mem_sortBy.mp hb)) ?_
  exact StrictTotal.eq_of_not_lt _ _ hba hab

end

end Libgetar.Lib
