import Libgetar.Lib.Compare

/-!
# `std::map` and `std::set`

A `std::map` with comparator `r` is the list of its entries in increasing key order; a `std::set`
is a map to the unit type. `StdMap` carries the order as a field, so every map that can be built is
sorted, and a map is determined by its lookups (`StdMap.ext_find?`).

Every modification goes through `upsert`, which is `m[k] = f(m[k])`: an absent key is inserted with
`f none`, a present one keeps its place.
-/

namespace Libgetar.Lib

/-- A `std::map` from `κ` to `ν` with comparator `r`. -/
@[ext]
structure StdMap (κ ν : Type*) (r : κ → κ → Bool) where
  /-- The entries, in the order in which the iterators pass them. -/
  entries : List (κ × ν)
  /-- The keys increase. -/
  sorted : entries.Pairwise fun a b => r a.1 b.1 = true

namespace StdMap

variable {κ ν : Type*} {r : κ → κ → Bool}

/-- `find`, on the list of entries: it stops at the first key that is not below `k`. -/
def findAux (r : κ → κ → Bool) (k : κ) : List (κ × ν) → Option ν
  | [] => none
  | (k', v) :: rest => if r k k' then none else if r k' k then findAux r k rest else some v

/-- `m[k] = f(m[k])`, on the list of entries. -/
def upsertAux (r : κ → κ → Bool) (k : κ) (f : Option ν → ν) : List (κ × ν) → List (κ × ν)
  | [] => [(k, f none)]
  | (k', v) :: rest =>
    if r k k' then (k, f none) :: (k', v) :: rest
    else if r k' k then (k', v) :: upsertAux r k f rest
    else (k', f (some v)) :: rest

/-- The keys after `upsertAux` are the old ones and `k`, up to the comparator. -/
theorem mem_upsertAux [StrictTotal r] {k : κ} {f : Option ν → ν} {e : κ × ν} :
    ∀ {l : List (κ × ν)}, e ∈ upsertAux r k f l → e.1 = k ∨ e ∈ l
  | [], h => by simp only [upsertAux, List.mem_singleton] at h; simp [h]
  | (k', v) :: rest, h => by
    simp only [upsertAux] at h
    rcases StrictTotal.trichotomy (r := r) k k' with ⟨h₁, -, h₂⟩ | ⟨h₁, rfl, -⟩ | ⟨h₁, -, h₂⟩
    · simp only [h₁, if_true, List.mem_cons] at h
      rcases h with rfl | h
      · exact Or.inl rfl
      · exact Or.inr (List.mem_cons.mpr h)
    · simp only [h₁, Bool.false_eq_true, if_false, List.mem_cons] at h
      rcases h with rfl | h
      · exact Or.inl rfl
      · exact Or.inr (List.mem_cons_of_mem _ h)
    · simp only [h₁, h₂, Bool.false_eq_true, if_false, if_true, List.mem_cons] at h
      rcases h with rfl | h
      · exact Or.inr List.mem_cons_self
      · exact (mem_upsertAux h).imp_right (List.mem_cons_of_mem _)

/-- `upsertAux` keeps the entries sorted. -/
theorem sorted_upsertAux [StrictTotal r] (k : κ) (f : Option ν → ν) :
    ∀ {l : List (κ × ν)}, l.Pairwise (fun a b => r a.1 b.1 = true) →
      (upsertAux r k f l).Pairwise fun a b => r a.1 b.1 = true
  | [], _ => by simp [upsertAux]
  | (k', v) :: rest, h => by
    obtain ⟨hhd, htl⟩ := List.pairwise_cons.mp h
    simp only [upsertAux]
    rcases StrictTotal.trichotomy (r := r) k k' with ⟨h₁, -, h₂⟩ | ⟨h₁, rfl, -⟩ | ⟨h₁, -, h₂⟩
    · simp only [h₁, if_true]
      refine List.pairwise_cons.mpr ⟨fun e he => ?_, h⟩
      rcases List.mem_cons.mp he with rfl | he
      · exact h₁
      · exact StrictTotal.trans _ _ _ h₁ (hhd e he)
    · simp only [h₁, Bool.false_eq_true, if_false]
      exact List.pairwise_cons.mpr ⟨hhd, htl⟩
    · simp only [h₁, h₂, Bool.false_eq_true, if_false, if_true]
      refine List.pairwise_cons.mpr ⟨fun e he => ?_, sorted_upsertAux k f htl⟩
      rcases mem_upsertAux he with he | he
      · rw [he]; exact h₂
      · exact hhd e he

/-- The empty map. -/
def empty : StdMap κ ν r := ⟨[], List.Pairwise.nil⟩

/-- `find`. -/
def find? (m : StdMap κ ν r) (k : κ) : Option ν := findAux r k m.entries

/-- `m[k] = f(m[k])`. -/
def upsert [StrictTotal r] (m : StdMap κ ν r) (k : κ) (f : Option ν → ν) : StdMap κ ν r :=
  ⟨upsertAux r k f m.entries, sorted_upsertAux k f m.sorted⟩

/-- `m[k] = v`. -/
def insert [StrictTotal r] (m : StdMap κ ν r) (k : κ) (v : ν) : StdMap κ ν r :=
  m.upsert k fun _ => v

/-- The keys, in order. -/
def keys (m : StdMap κ ν r) : List κ := m.entries.map Prod.fst

/-- The keys are strictly increasing. -/
theorem keys_sorted (m : StdMap κ ν r) : m.keys.Pairwise fun a b => r a b = true :=
  List.pairwise_map.mpr m.sorted

@[simp] theorem find?_empty (k : κ) : (empty : StdMap κ ν r).find? k = none := rfl

@[simp] theorem keys_empty : (empty : StdMap κ ν r).keys = [] := rfl

variable [StrictTotal r]

/-- In a sorted list of entries, `find` finds exactly the value of the entry with the key. -/
theorem findAux_eq_some_iff {k : κ} {v : ν} :
    ∀ {l : List (κ × ν)}, l.Pairwise (fun a b => r a.1 b.1 = true) →
      (findAux r k l = some v ↔ (k, v) ∈ l)
  | [], _ => by simp [findAux]
  | (k', v') :: rest, h => by
    obtain ⟨hhd, htl⟩ := List.pairwise_cons.mp h
    have ih := findAux_eq_some_iff (k := k) (v := v) htl
    simp only [findAux, List.mem_cons, Prod.mk.injEq]
    rcases StrictTotal.trichotomy (r := r) k k' with ⟨h₁, hne, -⟩ | ⟨h₁, rfl, -⟩ | ⟨h₁, hne, h₂⟩
    · simp only [h₁, if_true, reduceCtorEq, hne, false_and, false_or, false_iff]
      intro hmem
      have hlt := hhd _ hmem
      rw [StrictTotal.asymm (r := r) h₁] at hlt
      exact Bool.noConfusion hlt
    · simp only [h₁, Bool.false_eq_true, if_false, Option.some.injEq, true_and]
      refine ⟨fun h => Or.inl h.symm, fun h => ?_⟩
      rcases h with rfl | hmem
      · rfl
      · have hlt := hhd _ hmem
        rw [h₁] at hlt
        exact Bool.noConfusion hlt
    · simp only [h₁, h₂, Bool.false_eq_true, if_false, if_true, hne, false_and, false_or]
      exact ih

/-- What `find` finds are the entries. -/
theorem find?_eq_some_iff {m : StdMap κ ν r} {k : κ} {v : ν} :
    m.find? k = some v ↔ (k, v) ∈ m.entries :=
  findAux_eq_some_iff m.sorted

/-- A key is in the map when `find` finds it. -/
theorem mem_keys_iff {m : StdMap κ ν r} {k : κ} : k ∈ m.keys ↔ ∃ v, m.find? k = some v := by
  simp only [keys, List.mem_map, find?_eq_some_iff]
  exact ⟨fun ⟨⟨k', v⟩, h, e⟩ => ⟨v, e ▸ h⟩, fun ⟨v, h⟩ => ⟨(k, v), h, rfl⟩⟩

/-- Looking up in the modified list of entries. -/
theorem findAux_upsertAux (k k' : κ) (f : Option ν → ν) [DecidableEq κ] :
    ∀ (l : List (κ × ν)), findAux r k' (upsertAux r k f l) =
      if k' = k then some (f (findAux r k l)) else findAux r k' l
  | [] => by
    simp only [upsertAux, findAux]
    rcases StrictTotal.trichotomy (r := r) k' k with ⟨h₁, hne, -⟩ | ⟨h₁, rfl, -⟩ | ⟨h₁, hne, h₂⟩
    · simp [h₁, hne]
    · simp [h₁]
    · simp [h₁, h₂, hne]
  | (k₀, v) :: rest => by
    have ih := findAux_upsertAux k k' f rest
    simp only [upsertAux]
    rcases StrictTotal.trichotomy (r := r) k k₀ with ⟨h₁, -, h₂⟩ | ⟨h₁, rfl, -⟩ | ⟨h₁, hne, h₂⟩
    · -- The new entry goes in front.
      simp only [h₁, if_true, findAux]
      rcases StrictTotal.trichotomy (r := r) k' k with ⟨g₁, hne, -⟩ | ⟨g₁, rfl, -⟩ | ⟨g₁, hne, g₂⟩
      · have := StrictTotal.trans (r := r) k' k k₀ g₁ h₁
        simp [g₁, hne, this]
      · simp [g₁]
      · simp [g₁, g₂, hne]
    · -- The entry has the key: its value is replaced.
      simp only [h₁, Bool.false_eq_true, if_false, findAux]
      rcases StrictTotal.trichotomy (r := r) k' k with ⟨g₁, hne, -⟩ | ⟨g₁, rfl, -⟩ | ⟨g₁, hne, g₂⟩
      · simp [g₁, hne]
      · simp [g₁]
      · simp [g₁, g₂, hne]
    · -- The search goes on behind the entry.
      simp only [h₁, h₂, Bool.false_eq_true, if_false, if_true, findAux, ih]
      rcases StrictTotal.trichotomy (r := r) k' k with ⟨g₁, g, -⟩ | ⟨-, rfl, -⟩ | ⟨-, g, -⟩
      · simp [g]
      · simp [h₁, h₂]
      · simp [g]

/-- Looking up in a modified map. -/
theorem find?_upsert [DecidableEq κ] (m : StdMap κ ν r) (k k' : κ) (f : Option ν → ν) :
    (m.upsert k f).find? k' = if k' = k then some (f (m.find? k)) else m.find? k' :=
  findAux_upsertAux k k' f m.entries

/-- Looking up after `m[k] = v`. -/
@[simp] theorem find?_insert [DecidableEq κ] (m : StdMap κ ν r) (k k' : κ) (v : ν) :
    (m.insert k v).find? k' = if k' = k then some v else m.find? k' :=
  find?_upsert m k k' _

/-- The keys of a modified map. -/
theorem mem_keys_upsert [DecidableEq κ] {m : StdMap κ ν r} {k k' : κ} {f : Option ν → ν} :
    k' ∈ (m.upsert k f).keys ↔ k' = k ∨ k' ∈ m.keys := by
  simp only [mem_keys_iff, find?_upsert]
  by_cases h : k' = k
  · simp [h]
  · simp [h]

/-- Sorted lists of entries with the same members are equal. -/
theorem eq_of_mem_iff : ∀ {l l' : List (κ × ν)}, l.Pairwise (fun a b => r a.1 b.1 = true) →
    l'.Pairwise (fun a b => r a.1 b.1 = true) → (∀ e, e ∈ l ↔ e ∈ l') → l = l'
  | [], [], _, _, _ => rfl
  | [], e :: _, _, _, h => absurd ((h e).mpr List.mem_cons_self) (by simp)
  | e :: _, [], _, _, h => absurd ((h e).mp List.mem_cons_self) (by simp)
  | e :: l, e' :: l', hl, hl', h => by
    obtain ⟨hhd, htl⟩ := List.pairwise_cons.mp hl
    obtain ⟨hhd', htl'⟩ := List.pairwise_cons.mp hl'
    -- Each head is in the other list; were they different, each would be below the other.
    have he : e = e' := by
      rcases List.mem_cons.mp ((h e).mp List.mem_cons_self) with he | he
      · exact he
      · rcases List.mem_cons.mp ((h e').mpr List.mem_cons_self) with he' | he'
        · exact he'.symm
        · have h₁ := hhd' e he
          rw [StrictTotal.asymm (r := r) (hhd e' he')] at h₁
          exact Bool.noConfusion h₁
    subst he
    have hirr := StrictTotal.irrefl (r := r) e.1
    congr 1
    refine eq_of_mem_iff htl htl' fun a => ?_
    have ha := h a
    simp only [List.mem_cons] at ha
    constructor
    · intro hm
      rcases ha.mp (Or.inr hm) with rfl | hm'
      · rw [hhd _ hm] at hirr; exact Bool.noConfusion hirr
      · exact hm'
    · intro hm
      rcases ha.mpr (Or.inr hm) with rfl | hm'
      · rw [hhd' _ hm] at hirr; exact Bool.noConfusion hirr
      · exact hm'

/-- A map is determined by its lookups. -/
theorem ext_find? {m m' : StdMap κ ν r} (h : ∀ k, m.find? k = m'.find? k) : m = m' := by
  ext1
  refine eq_of_mem_iff m.sorted m'.sorted fun ⟨k, v⟩ => ?_
  rw [← find?_eq_some_iff, ← find?_eq_some_iff, h]

end StdMap

/-- A `std::set` with comparator `r`. -/
abbrev StdSet (κ : Type*) (r : κ → κ → Bool) := StdMap κ Unit r

namespace StdSet

variable {κ : Type*} {r : κ → κ → Bool}

/-- The elements, in order: `vector(s.begin(), s.end())`. -/
abbrev toList (s : StdSet κ r) : List κ := StdMap.keys s

variable [StrictTotal r]

/-- `s.insert(k)`. -/
def insert (s : StdSet κ r) (k : κ) : StdSet κ r := StdMap.insert s k ()

/-- The elements after an insertion. -/
@[simp] theorem mem_toList_insert [DecidableEq κ] {s : StdSet κ r} {k k' : κ} :
    k' ∈ (s.insert k).toList ↔ k' = k ∨ k' ∈ s.toList :=
  StdMap.mem_keys_upsert

/-- A set is determined by its elements. -/
theorem ext_mem {s s' : StdSet κ r} (h : ∀ k, k ∈ s.toList ↔ k ∈ s'.toList) : s = s' := by
  refine StdMap.ext_find? fun k => ?_
  have hfound : (∃ u, s.find? k = some u) ↔ ∃ u, s'.find? k = some u := by
    rw [← StdMap.mem_keys_iff, ← StdMap.mem_keys_iff]
    exact h k
  refine Option.ext fun u => ⟨fun hu => ?_, fun hu => ?_⟩
  · obtain ⟨u', hu'⟩ := hfound.mp ⟨u, hu⟩
    exact hu'
  · obtain ⟨u', hu'⟩ := hfound.mpr ⟨u, hu⟩
    exact hu'

end StdSet

end Libgetar.Lib
