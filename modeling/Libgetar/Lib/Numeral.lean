import Libgetar.Lib.Bytes

/-!
# Numerals in streams

What a `stringstream` writes for an unsigned number in a base up to ten, with a fill character and
a width (`numeral`, `fill`), and the value that it extracts into an unsigned integer of a given
width (`extract`): white space, an optional sign, digits, and then anything.

`digitsValue_numeral` and `length_numeral_le` describe what is written. `extract_digits` says what
is extracted from digits in front of something that is not a digit, so that what is written is read
back whenever it fits.
-/

namespace Libgetar.Lib

/-- The character of a digit. -/
def digitByte (d : ℕ) : UInt8 := UInt8.ofNat (48 + d)

/-- The digits of `n` in base `b`, the most significant one first: `stream << n`. -/
def numeral (b n : ℕ) : Bytes := if n = 0 then [48] else ((Nat.digits b n).map digitByte).reverse

/-- `fill(c)`, `width(w)` and `right`: the text, padded on its left to `w` characters. -/
def fill (c : UInt8) (w : ℕ) (s : Bytes) : Bytes := List.replicate (w - s.length) c ++ s

/-- A digit of base `b`. -/
def isDigit (b : ℕ) (c : UInt8) : Bool := 48 ≤ c.toNat && c.toNat < 48 + b

/-- The value of a text of digits. -/
def digitsValue (b : ℕ) (s : Bytes) : ℕ := s.foldl (fun v c => v * b + (c.toNat - 48)) 0

/-- `isspace` in the classic locale. -/
def isSpace (c : UInt8) : Bool := c == 32 || (9 ≤ c.toNat && c.toNat ≤ 13)

/-- The optional sign in front of a number, and what follows it. -/
def extractSign : Bytes → Bool × Bytes
  | c :: s => if c == 45 then (true, s) else if c == 43 then (false, s) else (false, c :: s)
  | [] => (false, [])

/-- `stream >> v` for an unsigned `v` below `bound`: an over-large number gives the largest value, a
negative one is negated modulo `bound`, and no digits give zero. -/
def extract (b bound : ℕ) (s : Bytes) : ℕ :=
  let (negative, rest) := extractSign (s.dropWhile isSpace)
  let v := digitsValue b (rest.takeWhile (isDigit b))
  if bound ≤ v then bound - 1 else if negative then (bound - v) % bound else v

/-! ## Writing -/

theorem toNat_digitByte {d : ℕ} (hd : d < 10) : (digitByte d).toNat = 48 + d := by
  simp only [digitByte, UInt8.toNat_ofNat']
  omega

/-- The value of a text with one more digit. -/
theorem digitsValue_concat (b : ℕ) (s : Bytes) (c : UInt8) :
    digitsValue b (s ++ [c]) = digitsValue b s * b + (c.toNat - 48) := by
  simp [digitsValue]

/-- Zeros in front do not change the value. -/
theorem digitsValue_replicate_append (b k : ℕ) (s : Bytes) :
    digitsValue b (List.replicate k 48 ++ s) = digitsValue b s := by
  induction k with
  | zero => rfl
  | succ k ih =>
    rw [List.replicate_succ, List.cons_append, ← ih]
    simp [digitsValue]

/-- The value of the characters of a list of digits, the least significant one first. -/
theorem digitsValue_reverse_map {b : ℕ} (hb : b ≤ 10) :
    ∀ {ds : List ℕ}, (∀ d ∈ ds, d < b) →
      digitsValue b (ds.map digitByte).reverse = Nat.ofDigits b ds
  | [], _ => rfl
  | d :: ds, h => by
    have hd : d < b := h d List.mem_cons_self
    rw [List.map_cons, List.reverse_cons, digitsValue_concat,
      digitsValue_reverse_map hb fun e he => h e (List.mem_cons_of_mem _ he),
      toNat_digitByte (by omega), Nat.ofDigits_cons]
    simp only [Nat.add_sub_cancel_left]
    ring

/-- What is written for a number has its value. -/
theorem digitsValue_numeral {b : ℕ} (hb₂ : 2 ≤ b) (hb : b ≤ 10) (n : ℕ) :
    digitsValue b (numeral b n) = n := by
  unfold numeral
  split
  · next h => simp [h, digitsValue]
  · rw [digitsValue_reverse_map hb fun d hd => Nat.digits_lt_base (by omega) hd, Nat.ofDigits_digits]

/-- The value of digits is below the power of the base. -/
theorem digitsValue_lt {b : ℕ} {s : Bytes} (h : ∀ c ∈ s, isDigit b c = true) :
    digitsValue b s < b ^ s.length := by
  induction s using List.reverseRecOn with
  | nil => exact Nat.one_pos
  | append_singleton s c ih =>
    have hs := ih fun d hd => h d (List.mem_append_left _ hd)
    have hc := h c (List.mem_append_right _ (List.mem_singleton_self _))
    simp only [isDigit, Bool.and_eq_true, decide_eq_true_eq] at hc
    have hdigit : c.toNat - 48 < b := by omega
    calc digitsValue b (s ++ [c]) = digitsValue b s * b + (c.toNat - 48) := digitsValue_concat b s c
      _ < digitsValue b s * b + b := by omega
      _ = (digitsValue b s + 1) * b := by ring
      _ ≤ b ^ s.length * b := Nat.mul_le_mul_right b hs
      _ = b ^ (s ++ [c]).length := by rw [List.length_append, List.length_singleton, pow_succ]

/-- Only digits are written. -/
theorem isDigit_of_mem_numeral {b : ℕ} (hb₂ : 2 ≤ b) (hb : b ≤ 10) {n : ℕ} {c : UInt8}
    (hc : c ∈ numeral b n) : isDigit b c = true := by
  unfold numeral at hc
  split at hc
  · rw [List.mem_singleton.mp hc]
    simp only [isDigit, Bool.and_eq_true, decide_eq_true_eq]
    exact ⟨le_refl 48, by show 48 < 48 + b; omega⟩
  · rw [List.mem_reverse, List.mem_map] at hc
    obtain ⟨d, hd, rfl⟩ := hc
    have hdb : d < b := Nat.digits_lt_base (by omega) hd
    simp only [isDigit, toNat_digitByte (show d < 10 by omega), Bool.and_eq_true, decide_eq_true_eq]
    omega

/-- At most `k` digits are written for a number below `b ^ k`. -/
theorem length_numeral_le {b k n : ℕ} (hb₂ : 2 ≤ b) (hk : 0 < k) (hn : n < b ^ k) :
    (numeral b n).length ≤ k := by
  unfold numeral
  split
  · exact hk
  · rw [List.length_reverse, List.length_map]
    exact (Nat.digits_length_le_iff (by omega) n).mpr hn

/-- A text that is not longer than the width fills it. -/
theorem length_fill {c : UInt8} {w : ℕ} {s : Bytes} (h : s.length ≤ w) : (fill c w s).length = w := by
  simp only [fill, List.length_append, List.length_replicate]
  omega

/-- A number filled with zeros has its value. -/
theorem digitsValue_fill_numeral {b : ℕ} (hb₂ : 2 ≤ b) (hb : b ≤ 10) (w n : ℕ) :
    digitsValue b (fill 48 w (numeral b n)) = n := by
  rw [fill, digitsValue_replicate_append, digitsValue_numeral hb₂ hb]

/-- A number filled with zeros consists of digits. -/
theorem isDigit_of_mem_fill_numeral {b : ℕ} (hb₂ : 2 ≤ b) (hb : b ≤ 10) {w n : ℕ} {c : UInt8}
    (hc : c ∈ fill 48 w (numeral b n)) : isDigit b c = true := by
  rcases List.mem_append.mp hc with hc | hc
  · rw [List.eq_of_mem_replicate hc]
    simp only [isDigit, Bool.and_eq_true, decide_eq_true_eq]
    exact ⟨le_refl 48, by show 48 < 48 + b; omega⟩
  · exact isDigit_of_mem_numeral hb₂ hb hc

/-- Something is written for every number. -/
theorem numeral_ne_nil (b n : ℕ) : numeral b n ≠ [] := by
  unfold numeral
  split
  · simp
  · next h => simpa [Nat.digits_ne_nil_iff_ne_zero] using h

/-! ## Extracting -/

/-- A digit is neither white space nor a sign. -/
theorem isSpace_of_isDigit {b : ℕ} {c : UInt8} (hc : isDigit b c = true) :
    isSpace c = false ∧ (c == 45) = false ∧ (c == 43) = false := by
  simp only [isDigit, Bool.and_eq_true, decide_eq_true_eq] at hc
  have h : c.toNat ≠ 32 ∧ c.toNat ≠ 45 ∧ c.toNat ≠ 43 := by omega
  have hne : ∀ d : UInt8, c.toNat ≠ d.toNat → (c == d) = false := by
    intro d hd
    simpa using fun e : c = d => hd (congrArg UInt8.toNat e)
  refine ⟨?_, hne 45 h.2.1, hne 43 h.2.2⟩
  rw [isSpace, hne 32 h.1]
  simp only [Bool.false_or, Bool.and_eq_false_iff, decide_eq_false_iff_not]
  omega

/-- Behind white space, digits that fit are extracted with their value, and what follows them, which
does not begin with a digit, is left alone. -/
theorem extract_digits {b bound : ℕ} {w ds t : Bytes} (hw : ∀ c ∈ w, isSpace c = true)
    (hne : ds ≠ []) (hds : ∀ c ∈ ds, isDigit b c = true)
    (ht : ∀ c ∈ t.head?, isDigit b c = false) (hv : digitsValue b ds < bound) :
    extract b bound (w ++ (ds ++ t)) = digitsValue b ds := by
  obtain ⟨d, ds', rfl⟩ := List.exists_cons_of_ne_nil hne
  obtain ⟨hsp, hminus, hplus⟩ := isSpace_of_isDigit (hds d List.mem_cons_self)
  have hskip : (w ++ (d :: ds' ++ t)).dropWhile isSpace = d :: ds' ++ t := by
    rw [List.dropWhile_append_of_pos hw, List.cons_append, List.dropWhile_cons, hsp]
    rfl
  have hsign : extractSign (d :: ds' ++ t) = (false, d :: ds' ++ t) := by
    simp only [List.cons_append, extractSign, hminus, hplus, Bool.false_eq_true, if_false]
  have htail : t.takeWhile (isDigit b) = [] := by
    cases t with
    | nil => rfl
    | cons c t => rw [List.takeWhile_cons, ht c rfl]; rfl
  have htake : (d :: ds' ++ t).takeWhile (isDigit b) = d :: ds' := by
    rw [List.takeWhile_append_of_pos hds, htail, List.append_nil]
  simp only [extract, hskip, hsign, htake, Bool.false_eq_true, if_false]
  rw [if_neg (by omega)]

/-- Nothing but digits that fit is extracted with its value. -/
theorem extract_of_digits {b bound : ℕ} {ds : Bytes} (hne : ds ≠ [])
    (hds : ∀ c ∈ ds, isDigit b c = true) (hv : digitsValue b ds < bound) :
    extract b bound ds = digitsValue b ds := by
  have hnone : ∀ c ∈ ([] : Bytes).head?, isDigit b c = false := by simp
  have hspace : ∀ c ∈ ([] : Bytes), isSpace c = true := by simp
  simpa using extract_digits hspace hne hds hnone hv

end Libgetar.Lib
