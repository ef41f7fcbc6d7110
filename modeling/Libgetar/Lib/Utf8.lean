import Libgetar.Lib.Bytes

/-!
# UTF-8

`IsUtf8 s` says that a byte string is the encoding of a string. Where it is cut at a byte below 128,
it is UTF-8 exactly when both sides are (`isUtf8_append_cons`): such a byte is a character of its own
and no part of another. `codePoints s` are the characters.
-/

namespace Libgetar.Lib

/-- The bytes encode a string. -/
def IsUtf8 (s : Bytes) : Prop := ByteArray.IsValidUTF8 ⟨⟨s⟩⟩

instance (s : Bytes) : Decidable (IsUtf8 s) := inferInstanceAs (Decidable (ByteArray.IsValidUTF8 _))

/-- The bytes are the encodings of characters. -/
theorem isUtf8_iff {s : Bytes} : IsUtf8 s ↔ ∃ cs : List Char, s = cs.flatMap String.utf8EncodeChar := by
  have hsame (cs : List Char) :
      (⟨⟨s⟩⟩ : ByteArray) = cs.utf8Encode ↔ s = cs.flatMap String.utf8EncodeChar := by
    unfold List.utf8Encode
    constructor
    · intro h
      have hlist := congrArg (fun b : ByteArray => b.data.toList) h
      simpa using hlist
    · intro h
      rw [h]
      ext1
      simp
  constructor
  · rintro ⟨cs, h⟩
    exact ⟨cs, (hsame cs).mp h⟩
  · rintro ⟨cs, h⟩
    exact ⟨cs, (hsame cs).mpr h⟩

/-- The characters that the bytes encode. -/
def codePoints (s : Bytes) : List Char := ((⟨⟨s⟩⟩ : ByteArray).utf8Decode?.getD #[]).toList

/-- Encoded characters are decoded. -/
theorem codePoints_flatMap (cs : List Char) : codePoints (cs.flatMap String.utf8EncodeChar) = cs := by
  have hbytes : (⟨⟨cs.flatMap String.utf8EncodeChar⟩⟩ : ByteArray) = cs.utf8Encode := by
    unfold List.utf8Encode
    ext1
    simp
  rw [codePoints, hbytes, List.utf8Decode?_utf8Encode]
  rfl

/-- What is UTF-8 encodes its characters. -/
theorem flatMap_codePoints {s : Bytes} (h : IsUtf8 s) :
    (codePoints s).flatMap String.utf8EncodeChar = s := by
  obtain ⟨cs, rfl⟩ := isUtf8_iff.mp h
  rw [codePoints_flatMap]

@[simp] theorem isUtf8_nil : IsUtf8 [] := isUtf8_iff.mpr ⟨[], rfl⟩

theorem IsUtf8.append {a b : Bytes} (ha : IsUtf8 a) (hb : IsUtf8 b) : IsUtf8 (a ++ b) := by
  obtain ⟨cs, rfl⟩ := isUtf8_iff.mp ha
  obtain ⟨ds, rfl⟩ := isUtf8_iff.mp hb
  exact isUtf8_iff.mpr ⟨cs ++ ds, List.flatMap_append.symm⟩

/-- A byte below 128 is a character. -/
theorem utf8EncodeChar_ofNat {c : UInt8} (hc : c < 128) :
    String.utf8EncodeChar (Char.ofNat c.toNat) = [c] := by
  have hlt : c.toNat < 128 := hc
  have hval : (Char.ofNat c.toNat).val.toNat = c.toNat := by
    have hvalid : c.toNat.isValidChar := Or.inl (by omega)
    rw [Char.ofNat, dif_pos hvalid]
    rfl
  unfold String.utf8EncodeChar
  rw [hval, if_pos (by omega), UInt8.ofNat_toNat]

/-- A byte below 128 is the only byte of its character. -/
theorem utf8EncodeChar_of_mem {d : Char} {c : UInt8} (hc : c < 128)
    (h : c ∈ String.utf8EncodeChar d) : String.utf8EncodeChar d = [c] := by
  have hlt : c.toNat < 128 := hc
  -- The bytes of the longer encodings have their high bit set.
  have hhigh (n : ℕ) (hn : 128 ≤ n) (hn' : n < 256) : c ≠ UInt8.ofNat n := by
    rintro rfl
    rw [UInt8.toNat_ofNat_of_lt' hn'] at hlt
    omega
  unfold String.utf8EncodeChar at h ⊢
  simp only at h ⊢
  split_ifs at h ⊢
  · rw [List.mem_singleton.mp h]
  · simp only [List.mem_cons, List.not_mem_nil, or_false] at h
    rcases h with h | h
    · exact absurd h (hhigh _ (by omega) (by omega))
    · exact absurd h (hhigh _ (by omega) (by omega))
  · simp only [List.mem_cons, List.not_mem_nil, or_false] at h
    rcases h with h | h | h
    · exact absurd h (hhigh _ (by omega) (by omega))
    · exact absurd h (hhigh _ (by omega) (by omega))
    · exact absurd h (hhigh _ (by omega) (by omega))
  · simp only [List.mem_cons, List.not_mem_nil, or_false] at h
    rcases h with h | h | h | h
    · exact absurd h (hhigh _ (by omega) (by omega))
    · exact absurd h (hhigh _ (by omega) (by omega))
    · exact absurd h (hhigh _ (by omega) (by omega))
    · exact absurd h (hhigh _ (by omega) (by omega))

/-- What the characters encode, cut at a byte below 128. -/
theorem isUtf8_of_flatMap {c : UInt8} (hc : c < 128) {b : Bytes} :
    ∀ {cs : List Char} {a : Bytes}, a ++ c :: b = cs.flatMap String.utf8EncodeChar →
      IsUtf8 a ∧ IsUtf8 b := by
  intro cs
  induction cs with
  | nil =>
    intro a h
    exact absurd (List.append_eq_nil_iff.mp h).2 (List.cons_ne_nil _ _)
  | cons d cs ih =>
    intro a h
    have hd : IsUtf8 (String.utf8EncodeChar d) :=
      isUtf8_iff.mpr ⟨[d], (List.flatMap_singleton _ _).symm⟩
    rw [List.flatMap_cons] at h
    rcases List.append_eq_append_iff.mp h with ⟨a', henc, hrest⟩ | ⟨a', ha, hrest⟩
    · rcases a' with - | ⟨c', a'⟩
      · -- The byte is the first one behind the character.
        rw [List.append_nil] at henc
        obtain ⟨-, hb⟩ := ih (a := []) hrest
        exact ⟨henc ▸ hd, hb⟩
      · -- The byte is one of the character, so it is all of it.
        obtain ⟨rfl, hb⟩ := List.cons.inj hrest
        have hmem : c ∈ String.utf8EncodeChar d := by
          rw [henc]
          exact List.mem_append_right _ List.mem_cons_self
        have hall := (utf8EncodeChar_of_mem hc hmem).symm.trans henc
        rcases a with - | ⟨x, a⟩
        · obtain ⟨-, rfl⟩ := List.cons.inj hall
          exact ⟨isUtf8_nil, isUtf8_iff.mpr ⟨cs, hb⟩⟩
        · exact absurd (List.cons.inj hall).2.symm (by simp)
    · obtain ⟨ha', hb⟩ := ih hrest.symm
      exact ⟨ha ▸ hd.append ha', hb⟩

/-- A string is cut at a byte below 128. -/
theorem isUtf8_append_cons {a b : Bytes} {c : UInt8} (hc : c < 128) :
    IsUtf8 (a ++ c :: b) ↔ IsUtf8 a ∧ IsUtf8 b := by
  constructor
  · intro h
    obtain ⟨cs, hcs⟩ := isUtf8_iff.mp h
    exact isUtf8_of_flatMap hc hcs
  · rintro ⟨ha, hb⟩
    have hsingle : IsUtf8 [c] := isUtf8_iff.mpr
      ⟨[Char.ofNat c.toNat], by rw [List.flatMap_singleton, utf8EncodeChar_ofNat hc]⟩
    exact ha.append (hsingle.append hb)

/-- Bytes below 128 can be left out in front. -/
theorem isUtf8_ascii_append {a b : Bytes} (ha : ∀ c ∈ a, c < 128) :
    IsUtf8 (a ++ b) ↔ IsUtf8 b := by
  induction a with
  | nil => rfl
  | cons c a ih =>
    obtain ⟨hc, ha⟩ := List.forall_mem_cons.mp ha
    have hcut := isUtf8_append_cons (a := []) (b := a ++ b) hc
    exact hcut.trans ((and_iff_right isUtf8_nil).trans (ih ha))

/-- Bytes below 128 can be left out behind. -/
theorem isUtf8_append_ascii {a b : Bytes} (hb : ∀ c ∈ b, c < 128) :
    IsUtf8 (a ++ b) ↔ IsUtf8 a := by
  cases b with
  | nil => rw [List.append_nil]
  | cons c b =>
    obtain ⟨hc, hb⟩ := List.forall_mem_cons.mp hb
    have hrest : IsUtf8 b := by
      have hleft := (isUtf8_ascii_append (b := []) hb).mpr isUtf8_nil
      rwa [List.append_nil] at hleft
    rw [isUtf8_append_cons hc, and_iff_left hrest]

end Libgetar.Lib
