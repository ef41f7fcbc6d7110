import Libgetar.Lib.Compare
import Libgetar.Lib.Numeral
import Libgetar.Lib.Utf8

/-!
# Shorter lists first

`shortlex a b` says that `a` is shorter than `b`, or as long and below it in the lexicographic order.

Of numerals without leading zeros this is the order of their values (`shortlex_iff_digitsValue_lt`):
digits of the same number are compared as their values are, and a longer numeral, whose first digit
is not zero, has the larger one.

Of texts in UTF-8 the lexicographic order is that of their characters (`codePoints_lt_iff`), since of
two characters the smaller one has, at the first byte where their encodings differ, the smaller byte.
The lengths are not the same thing: a text with fewer bytes can have more characters.
-/

namespace Libgetar.Lib

/-- Shorter lists come first, and of the same length, the lexicographic order decides. -/
def shortlex {α : Type*} [LT α] [DecidableEq α] [DecidableLT α] (a b : List α) : Bool :=
  decide (a.length < b.length) || (decide (a.length = b.length) && decide (a < b))

/-- What `shortlex` decides. -/
theorem shortlex_iff {α : Type*} [LT α] [DecidableEq α] [DecidableLT α] {a b : List α} :
    shortlex a b = true ↔ a.length < b.length ∨ a.length = b.length ∧ a < b := by
  simp only [shortlex, Bool.or_eq_true, Bool.and_eq_true, decide_eq_true_eq]

/-- `shortlex` of a linear order satisfies the laws of a comparator. -/
instance {α : Type*} [LinearOrder α] : StrictTotal (shortlex : List α → List α → Bool) where
  irrefl a := by
    rw [← Bool.not_eq_true, shortlex_iff]
    rintro (h | ⟨-, h⟩)
    · exact lt_irrefl _ h
    · exact lt_irrefl a h
  trans a b c hab hbc := by
    rw [shortlex_iff] at hab hbc ⊢
    rcases hab with hab | ⟨hab, hlt⟩
    · exact Or.inl (by omega)
    · rcases hbc with hbc | ⟨hbc, hlt'⟩
      · exact Or.inl (by omega)
      · exact Or.inr ⟨by omega, lt_trans hlt hlt'⟩
  eq_of_not_lt a b hab hba := by
    rw [← Bool.not_eq_true, shortlex_iff] at hab hba
    push Not at hab hba
    have hlength : a.length = b.length := by omega
    exact le_antisymm (hba.2 hlength.symm) (hab.2 hlength)

/-! ## Numerals -/

/-- Decimal digits without a zero in front of others. -/
structure IsNumeral (s : Bytes) : Prop where
  ne_nil : s ≠ []
  digits : ∀ c ∈ s, isDigit 10 c = true
  head : s.head? = some 48 → s = [48]

instance (s : Bytes) : Decidable (IsNumeral s) :=
  decidable_of_iff (s ≠ [] ∧ (∀ c ∈ s, isDigit 10 c = true) ∧ (s.head? = some 48 → s = [48]))
    ⟨fun h => ⟨h.1, h.2.1, h.2.2⟩, fun h => ⟨h.ne_nil, h.digits, h.head⟩⟩

/-- The value of a digit in front of others. -/
theorem digitsValue_cons (b : ℕ) (c : UInt8) (s : Bytes) :
    digitsValue b (c :: s) = (c.toNat - 48) * b ^ s.length + digitsValue b s := by
  induction s using List.reverseRecOn with
  | nil => simp [digitsValue]
  | append_singleton s d ih =>
    rw [← List.cons_append, digitsValue_concat, digitsValue_concat, ih, List.length_append,
      List.length_singleton, pow_succ]
    ring

/-- As many digits are compared as their values are. -/
theorem lt_iff_digitsValue_lt {b : ℕ} :
    ∀ {s t : Bytes}, s.length = t.length → (∀ c ∈ s, isDigit b c = true) →
      (∀ c ∈ t, isDigit b c = true) → (s < t ↔ digitsValue b s < digitsValue b t)
  | [], [], _, _, _ => by simp
  | c :: s, d :: t, hlength, hs, ht => by
    obtain ⟨hc, hs⟩ := List.forall_mem_cons.mp hs
    obtain ⟨hd, ht⟩ := List.forall_mem_cons.mp ht
    have hlength : s.length = t.length := Nat.succ.inj hlength
    have ih := lt_iff_digitsValue_lt hlength hs ht
    have hvs := digitsValue_lt hs
    have hvt := digitsValue_lt ht
    rw [isDigit, Bool.and_eq_true, decide_eq_true_eq, decide_eq_true_eq] at hc hd
    rw [List.cons_lt_cons_iff, digitsValue_cons, digitsValue_cons, ih, hlength]
    rw [hlength] at hvs
    have hcd : c < d ↔ c.toNat < d.toNat := Iff.rfl
    have heq : c = d ↔ c.toNat = d.toNat := UInt8.toNat_inj.symm
    rw [hcd, heq]
    -- The first digits decide, unless they are the same.
    rcases lt_trichotomy c.toNat d.toNat with h | h | h
    · have hmul : (c.toNat - 48 + 1) * b ^ t.length ≤ (d.toNat - 48) * b ^ t.length :=
        Nat.mul_le_mul_right _ (by omega)
      rw [Nat.add_mul, Nat.one_mul] at hmul
      exact iff_of_true (Or.inl h) (by omega)
    · rw [h]
      omega
    · have hmul : (d.toNat - 48 + 1) * b ^ t.length ≤ (c.toNat - 48) * b ^ t.length :=
        Nat.mul_le_mul_right _ (by omega)
      rw [Nat.add_mul, Nat.one_mul] at hmul
      exact iff_of_false (by omega) (by omega)

/-- A numeral of more than one digit is not below the power of ten that has as many. -/
theorem IsNumeral.pow_le {s : Bytes} (h : IsNumeral s) (hlength : 2 ≤ s.length) :
    10 ^ (s.length - 1) ≤ digitsValue 10 s := by
  obtain ⟨c, rest, rfl⟩ := List.exists_cons_of_ne_nil h.ne_nil
  have hc := h.digits c List.mem_cons_self
  rw [isDigit, Bool.and_eq_true, decide_eq_true_eq, decide_eq_true_eq] at hc
  have hne : c ≠ 48 := by
    rintro rfl
    rw [h.head rfl] at hlength
    simp at hlength
  have hpos : 1 ≤ c.toNat - 48 := by
    have hne' : c.toNat ≠ 48 := fun heq => hne (UInt8.toNat_inj.mp heq)
    omega
  rw [digitsValue_cons, List.length_cons, Nat.add_sub_cancel]
  calc 10 ^ rest.length = 1 * 10 ^ rest.length := (Nat.one_mul _).symm
    _ ≤ (c.toNat - 48) * 10 ^ rest.length := Nat.mul_le_mul_right _ hpos
    _ ≤ (c.toNat - 48) * 10 ^ rest.length + digitsValue 10 rest := Nat.le_add_right _ _

/-- A shorter numeral has a smaller value. -/
theorem IsNumeral.value_lt_of_length_lt {s t : Bytes} (hs : IsNumeral s) (ht : IsNumeral t)
    (h : s.length < t.length) : digitsValue 10 s < digitsValue 10 t := by
  have hpos : 0 < s.length := List.length_pos_iff.mpr hs.ne_nil
  calc digitsValue 10 s < 10 ^ s.length := digitsValue_lt hs.digits
    _ ≤ 10 ^ (t.length - 1) := Nat.pow_le_pow_right (by omega) (by omega)
    _ ≤ digitsValue 10 t := ht.pow_le (by omega)

/-- Numerals are ordered by their values. -/
theorem shortlex_iff_digitsValue_lt {s t : Bytes} (hs : IsNumeral s) (ht : IsNumeral t) :
    shortlex s t = true ↔ digitsValue 10 s < digitsValue 10 t := by
  rw [shortlex_iff]
  rcases lt_trichotomy s.length t.length with h | h | h
  · exact iff_of_true (Or.inl h) (hs.value_lt_of_length_lt ht h)
  · rw [lt_iff_digitsValue_lt h hs.digits ht.digits]
    omega
  · have hvalue := ht.value_lt_of_length_lt hs h
    exact iff_of_false (by omega) (by omega)

/-! ## Texts in UTF-8 -/

/-- Bytes in front of lists are compared first. -/
theorem ofNat_cons_lt_iff {m n : ℕ} (hm : m < 256) (hn : n < 256) {s t : Bytes} :
    UInt8.ofNat m :: s < UInt8.ofNat n :: t ↔ m < n ∨ m = n ∧ s < t := by
  rw [List.cons_lt_cons_iff, UInt8.lt_iff_toNat_lt, ← UInt8.toNat_inj, UInt8.toNat_ofNat_of_lt' hm,
    UInt8.toNat_ofNat_of_lt' hn]

/-- Numbers are compared by their last digit in base 64 when the others are the same. -/
theorem lt_iff_div_mod (m n : ℕ) :
    m < n ↔ m / 64 < n / 64 ∨ m / 64 = n / 64 ∧ m % 64 < n % 64 := by
  omega

theorem eq_iff_div_mod (m n : ℕ) : m = n ↔ m / 64 = n / 64 ∧ m % 64 = n % 64 := by
  omega

/-- Of two characters the smaller one is encoded below the other, whatever comes behind them. -/
theorem utf8EncodeChar_append_lt {c d : Char} (h : c < d) (s t : Bytes) :
    String.utf8EncodeChar c ++ s < String.utf8EncodeChar d ++ t := by
  have hlt : c.val.toNat < d.val.toNat := h
  have hd : d.val.toNat < 1114112 := by
    rcases d.valid with hvalid | hvalid
    · have hsmall : d.val.toNat < 0xd800 := hvalid
      omega
    · exact hvalid.2
  unfold String.utf8EncodeChar
  simp only
  generalize c.val.toNat = m at hlt ⊢
  generalize d.val.toNat = n at hlt hd ⊢
  have hm : m / 4096 = m / 64 / 64 ∧ m / 262144 = m / 64 / 64 / 64 := by
    simp only [Nat.div_div_eq_div_mul, and_self]
  have hn : n / 4096 = n / 64 / 64 ∧ n / 262144 = n / 64 / 64 / 64 := by
    simp only [Nat.div_div_eq_div_mul, and_self]
  rw [hm.1, hm.2, hn.1, hn.2]
  -- Encodings of different lengths differ in their first bytes, and of the same length, in the digits.
  split_ifs <;> simp only [List.cons_append, List.nil_append]
  all_goals rw [ofNat_cons_lt_iff (by omega) (by omega)]
  all_goals first
  | exact Or.inl (by omega)
  | rw [ofNat_cons_lt_iff (by omega) (by omega)]
  all_goals first
  | omega
  | rw [ofNat_cons_lt_iff (by omega) (by omega)]
  all_goals first
  | omega
  | rw [ofNat_cons_lt_iff (by omega) (by omega)]
  -- Only the encodings of four bytes are left.
  rw [lt_iff_div_mod, lt_iff_div_mod (m / 64), lt_iff_div_mod (m / 64 / 64), eq_iff_div_mod (m / 64),
    eq_iff_div_mod (m / 64 / 64)] at hlt
  have hsmall : m / 64 / 64 / 64 < 8 ∧ n / 64 / 64 / 64 < 8 := by omega
  rw [Nat.mod_eq_of_lt hsmall.1, Nat.mod_eq_of_lt hsmall.2]
  generalize m / 64 / 64 / 64 = m₃, n / 64 / 64 / 64 = n₃, m / 64 / 64 % 64 = m₂,
    n / 64 / 64 % 64 = n₂, m / 64 % 64 = m₁, n / 64 % 64 = n₁, m % 64 = m₀, n % 64 = n₀ at hlt ⊢
  omega

/-- An encoding is not empty. -/
theorem nil_lt_utf8EncodeChar_append (c : Char) (s : Bytes) : [] < String.utf8EncodeChar c ++ s := by
  have hne : String.utf8EncodeChar c ++ s ≠ [] := by
    intro h
    have hlength := congrArg List.length (List.append_eq_nil_iff.mp h).1
    rw [String.length_utf8EncodeChar, List.length_nil] at hlength
    exact absurd hlength (Nat.ne_of_gt c.utf8Size_pos)
  obtain ⟨b, rest, hcons⟩ := List.exists_cons_of_ne_nil hne
  rw [hcons]
  exact List.nil_lt_cons b rest

/-- Texts are ordered as their encodings are. -/
theorem flatMap_utf8EncodeChar_lt : ∀ {cs ds : List Char},
    cs < ds → cs.flatMap String.utf8EncodeChar < ds.flatMap String.utf8EncodeChar
  | _, [], h => absurd h (List.not_lt_nil _)
  | [], d :: ds, _ => by
    rw [List.flatMap_nil, List.flatMap_cons]
    exact nil_lt_utf8EncodeChar_append d _
  | c :: cs, d :: ds, h => by
    rw [List.flatMap_cons, List.flatMap_cons]
    rcases List.cons_lt_cons_iff.mp h with hlt | ⟨rfl, hlt⟩
    · exact utf8EncodeChar_append_lt hlt _ _
    · exact List.append_left_lt (flatMap_utf8EncodeChar_lt hlt)

/-- UTF-8 keeps the order of the characters. -/
theorem codePoints_lt_iff {s t : Bytes} (hs : IsUtf8 s) (ht : IsUtf8 t) :
    codePoints s < codePoints t ↔ s < t := by
  have hmono {a b : Bytes} (ha : IsUtf8 a) (hb : IsUtf8 b) (h : codePoints a < codePoints b) :
      a < b := by
    have hlt := flatMap_utf8EncodeChar_lt h
    rwa [flatMap_codePoints ha, flatMap_codePoints hb] at hlt
  constructor
  · exact hmono hs ht
  · intro h
    rcases lt_trichotomy (codePoints s) (codePoints t) with hlt | heq | hgt
    · exact hlt
    · rw [← flatMap_codePoints hs, heq, flatMap_codePoints ht] at h
      exact absurd h (List.lt_irrefl t)
    · exact absurd (hmono ht hs hgt) (List.lt_asymm h)

end Libgetar.Lib
