import Libgetar.Lib.Bytes

/-!
# The order of the bytes of an element

Elements of `size` bytes lie one behind the other in memory. `swapElements` is the loop that reverses
each of them in place, by swapping its bytes from both ends to the middle: `swapElements_flatten`. A
number is stored with its low byte first on a little-endian machine, and last on a big-endian one
(`represent`), and read in the same way (`numberOf`).
-/

namespace Libgetar.Lib

/-! ## Swapping in place -/

section Swap

variable {α : Type*}

/-- `std::swap(s[i], s[j])`. -/
def swapAt (s : List α) (i j : ℕ) : List α :=
  match s[i]?, s[j]? with
  | some x, some y => (s.set i y).set j x
  | _, _ => s

/-- The loop over one half of element `i`. -/
def swapElement (size i : ℕ) (s : List α) : List α :=
  (List.range (size / 2)).foldl
    (fun s j => swapAt s (i * size + j) ((i + 1) * size - j - 1)) s

/-- The loop over the elements. -/
def swapElements (size : ℕ) (s : List α) : List α :=
  (List.range (s.length / size)).foldl (fun s i => swapElement size i s) s

theorem getElem?_swapAt {s : List α} {i j : ℕ} (hi : i < s.length) (hj : j < s.length) (p : ℕ) :
    (swapAt s i j)[p]? = if p = j then s[i]? else if p = i then s[j]? else s[p]? := by
  rw [swapAt, List.getElem?_eq_getElem hi, List.getElem?_eq_getElem hj]
  dsimp only
  by_cases hpj : p = j
  · rw [hpj, if_pos rfl, List.getElem?_set_self (by rwa [List.length_set])]
  · rw [if_neg hpj, List.getElem?_set_ne (Ne.symm hpj)]
    by_cases hpi : p = i
    · rw [hpi, if_pos rfl, List.getElem?_set_self hi]
    · rw [if_neg hpi, List.getElem?_set_ne (Ne.symm hpi)]

@[simp] theorem length_swapAt (s : List α) (i j : ℕ) : (swapAt s i j).length = s.length := by
  unfold swapAt
  split
  · rw [List.length_set, List.length_set]
  · rfl

theorem length_swaps (s : List α) (f g : ℕ → ℕ) (k : ℕ) :
    ((List.range k).foldl (fun s j => swapAt s (f j) (g j)) s).length = s.length := by
  induction k with
  | zero => rfl
  | succ k ih => rw [List.range_succ, List.foldl_concat, length_swapAt, ih]

/-- Nothing is lost. -/
theorem length_swapElements (size : ℕ) (s : List α) : (swapElements size s).length = s.length := by
  have hfold : ∀ (is : List ℕ) (t : List α),
      (is.foldl (fun s i => swapElement size i s) t).length = t.length := by
    intro is
    induction is with
    | nil => exact fun _ => rfl
    | cons i is ih => exact fun t => (ih _).trans (length_swaps t _ _ _)
  exact hfold _ s

/-- After `k` swaps the outer `k` bytes on both sides of an element at `b` are mirrored. -/
theorem getElem?_swaps {s : List α} {size b : ℕ} (hb : b + size ≤ s.length) (k : ℕ)
    (hk : k ≤ size / 2) (p : ℕ) :
    ((List.range k).foldl (fun s j => swapAt s (b + j) (b + size - j - 1)) s)[p]? =
      if b ≤ p ∧ p < b + size ∧ (p < b + k ∨ b + size ≤ p + k) then s[2 * b + size - 1 - p]?
      else s[p]? := by
  induction k generalizing p with
  | zero => rw [if_neg (by omega)]; rfl
  | succ k ih =>
    have hlow : b + k < s.length := by omega
    have hhigh : b + size - k - 1 < s.length := by omega
    rw [List.range_succ, List.foldl_concat, getElem?_swapAt (by rwa [length_swaps])
      (by rwa [length_swaps]), ih (by omega), ih (by omega), ih (by omega)]
    -- The two bytes that this swap exchanges have not been moved before.
    rw [if_neg (show ¬(b ≤ b + k ∧ b + k < b + size ∧ (b + k < b + k ∨ b + size ≤ b + k + k)) by omega),
      if_neg (show ¬(b ≤ b + size - k - 1 ∧ b + size - k - 1 < b + size ∧
        (b + size - k - 1 < b + k ∨ b + size ≤ b + size - k - 1 + k)) by omega)]
    by_cases hp : p = b + size - k - 1
    · rw [if_pos hp, if_pos (by omega)]
      exact congrArg (s[·]?) (by omega)
    · rw [if_neg hp]
      by_cases hp' : p = b + k
      · rw [if_pos hp', if_pos (by omega)]
        exact congrArg (s[·]?) (by omega)
      · rw [if_neg hp']
        exact if_congr (by omega) rfl rfl

/-- The loop over one half of an element reverses it. -/
theorem swapElement_append {front e rest : List α} {size i : ℕ} (hfront : front.length = i * size)
    (he : e.length = size) : swapElement size i (front ++ (e ++ rest)) = front ++ (e.reverse ++ rest) := by
  have hend : ∀ j, (i + 1) * size - j - 1 = front.length + size - j - 1 := by
    intro j
    rw [Nat.succ_mul, hfront]
  have hlength : front.length + size ≤ (front ++ (e ++ rest)).length := by
    rw [List.length_append, List.length_append]
    omega
  unfold swapElement
  simp only [hend, ← hfront]
  refine List.ext_getElem? fun p => ?_
  rw [getElem?_swaps hlength _ le_rfl]
  rcases lt_or_ge p front.length with hp | hp
  · rw [if_neg (by omega), List.getElem?_append_left hp, List.getElem?_append_left hp]
  rcases lt_or_ge p (front.length + size) with hp' | hp'
  · -- A byte of the element, mirrored or in the middle.
    have hmirror : (if front.length ≤ p ∧ p < front.length + size ∧
          (p < front.length + size / 2 ∨ front.length + size ≤ p + size / 2)
        then (front ++ (e ++ rest))[2 * front.length + size - 1 - p]?
        else (front ++ (e ++ rest))[p]?) =
          (front ++ (e ++ rest))[2 * front.length + size - 1 - p]? := by
      split
      · rfl
      · exact congrArg ((front ++ (e ++ rest))[·]?) (by omega)
    rw [hmirror, List.getElem?_append_right hp, List.getElem?_append_right (by omega),
      List.getElem?_append_left (by omega), List.getElem?_append_left (by rw [List.length_reverse]; omega),
      List.getElem?_reverse (by omega)]
    exact congrArg (e[·]?) (by omega)
  · rw [if_neg (by omega), List.getElem?_append_right hp, List.getElem?_append_right hp,
      List.getElem?_append_right (by omega), List.getElem?_append_right (by rw [List.length_reverse]; omega),
      List.length_reverse]

/-- Elements of one size. -/
theorem length_flatten_of_forall {size : ℕ} {es : List (List α)} (hes : ∀ e ∈ es, e.length = size) :
    es.flatten.length = es.length * size := by
  have hsum := List.sum_eq_card_nsmul (es.map List.length) size (List.forall_mem_map.mpr hes)
  rwa [List.length_map, smul_eq_mul, ← List.length_flatten] at hsum

/-- The loop over the elements reverses each of them. -/
theorem swapElements_flatten {size : ℕ} (hsize : 0 < size) {es : List (List α)}
    (hes : ∀ e ∈ es, e.length = size) :
    swapElements size es.flatten = (es.map List.reverse).flatten := by
  -- The elements in `done` are reversed already.
  have hloop : ∀ todo done : List (List α), (∀ e ∈ done, e.length = size) →
      (∀ e ∈ todo, e.length = size) →
      (List.range' done.length todo.length).foldl (fun s i => swapElement size i s)
          (done ++ todo).flatten = (done ++ todo.map List.reverse).flatten := by
    intro todo
    induction todo with
    | nil => exact fun _ _ _ => rfl
    | cons e todo ih =>
      intro done hdone htodo
      obtain ⟨he, hrest⟩ := List.forall_mem_cons.mp htodo
      have hdone' : ∀ d ∈ done ++ [e.reverse], d.length = size := by
        intro d hd
        rcases List.mem_append.mp hd with hd | hd
        · exact hdone d hd
        · rw [List.mem_singleton.mp hd, List.length_reverse, he]
      have hnext := ih (done ++ [e.reverse]) hdone' hrest
      rw [List.length_append, List.length_singleton] at hnext
      rw [List.length_cons, List.range'_succ, List.foldl_cons, List.flatten_append,
        List.flatten_cons, swapElement_append (length_flatten_of_forall hdone) he]
      simpa using hnext
  rw [swapElements, length_flatten_of_forall hes, Nat.mul_div_cancel _ hsize, List.range_eq_range']
  exact hloop es [] (by simp) hes

end Swap

/-! ## Numbers in memory -/

/-- The bytes of a number, the low one first. -/
def lowFirst : ℕ → ℕ → Bytes
  | 0, _ => []
  | size + 1, n => UInt8.ofNat n :: lowFirst size (n / 256)

/-- A number of `size` bytes in the memory of a machine. -/
def represent (bigEndian : Bool) (size n : ℕ) : Bytes :=
  if bigEndian then (lowFirst size n).reverse else lowFirst size n

@[simp] theorem length_lowFirst (size n : ℕ) : (lowFirst size n).length = size := by
  induction size generalizing n with
  | zero => rfl
  | succ size ih => rw [lowFirst, List.length_cons, ih]

@[simp] theorem length_represent (bigEndian : Bool) (size n : ℕ) :
    (represent bigEndian size n).length = size := by
  unfold represent
  split
  · rw [List.length_reverse, length_lowFirst]
  · rw [length_lowFirst]

/-- The number that such bytes stand for. -/
def lowFirstValue : Bytes → ℕ
  | [] => 0
  | c :: rest => c.toNat + 256 * lowFirstValue rest

/-- The number that lies in the memory of a machine. -/
def numberOf (bigEndian : Bool) (e : Bytes) : ℕ :=
  if bigEndian then lowFirstValue e.reverse else lowFirstValue e

theorem lowFirstValue_lowFirst {size n : ℕ} (hn : n < 256 ^ size) :
    lowFirstValue (lowFirst size n) = n := by
  induction size generalizing n with
  | zero => rw [lowFirst, lowFirstValue]; omega
  | succ size ih =>
    rw [pow_succ] at hn
    have hlow : (UInt8.ofNat n).toNat = n % 256 := UInt8.toNat_ofNat'
    rw [lowFirst, lowFirstValue, ih (by omega), hlow]
    omega

theorem lowFirst_lowFirstValue (e : Bytes) : lowFirst e.length (lowFirstValue e) = e := by
  induction e with
  | nil => rfl
  | cons c rest ih =>
    have hc := c.toNat_lt
    have hdiv : (c.toNat + 256 * lowFirstValue rest) / 256 = lowFirstValue rest := by omega
    have hlow : UInt8.ofNat (c.toNat + 256 * lowFirstValue rest) = c := by
      refine UInt8.toNat_inj.mp ?_
      rw [UInt8.toNat_ofNat']
      omega
    rw [lowFirstValue, List.length_cons, lowFirst, hdiv, ih, hlow]

/-- A number is read from where it was stored. -/
theorem numberOf_represent (bigEndian : Bool) {size n : ℕ} (hn : n < 256 ^ size) :
    numberOf bigEndian (represent bigEndian size n) = n := by
  unfold numberOf represent
  split
  · rw [List.reverse_reverse, lowFirstValue_lowFirst hn]
  · exact lowFirstValue_lowFirst hn

/-- The bytes are those of the number that is read from them. -/
theorem represent_numberOf (bigEndian : Bool) (e : Bytes) :
    represent bigEndian e.length (numberOf bigEndian e) = e := by
  unfold numberOf represent
  split
  · have hback := lowFirst_lowFirstValue e.reverse
    rw [List.length_reverse] at hback
    rw [hback, List.reverse_reverse]
  · exact lowFirst_lowFirstValue e

/-- In the memory of the other kind of machine the bytes are in the other order. -/
theorem reverse_represent (bigEndian : Bool) (size n : ℕ) :
    (represent bigEndian size n).reverse = represent (!bigEndian) size n := by
  cases bigEndian with
  | false => rfl
  | true => exact List.reverse_reverse _

end Libgetar.Lib
