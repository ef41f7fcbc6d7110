import Libgetar.Sqlite.Chunk

/-!
# Blocks of literals

What LZ4 makes of a source in which it finds no match (the last literals of `LZ4_compress_generic`),
as it does for every source below `LZ4_minLength` bytes, and how it decodes such blocks. This is an
instance of `Lz4` that inverts (`literalLz4_inverts`).
-/

namespace Libgetar.Sqlite

open Lib

/-- `RUN_MASK`. -/
def runMask : ℕ := 15

/-- `_last_literals`: the token, the rest of the length, and the literals. -/
def lastLiterals (source : Bytes) : Bytes :=
  if runMask ≤ source.length then
    UInt8.ofNat (runMask * 16) :: (List.replicate ((source.length - runMask) / 255) 255 ++
      UInt8.ofNat ((source.length - runMask) % 255) :: source)
  else UInt8.ofNat (source.length * 16) :: source

/-- The rest of a length, up to the first byte that is not 255. -/
def literalLength : ℕ → Bytes → Option (ℕ × Bytes)
  | _, [] => none
  | length, s :: rest =>
    if s = 255 then literalLength (length + 255) rest else some (length + s.toNat, rest)

/-- `LZ4_decompress_safe` for a block of literals. -/
def decodeLiterals (block : Bytes) (capacity : ℕ) : Option Bytes :=
  if capacity = 0 then
    if block = [0] then some [] else none
  else
    match block with
    | [] => none
    | token :: rest =>
      let length := token.toNat / 16
      match if length = runMask then literalLength length rest else some (length, rest) with
      | none => none
      | some (length, literals) =>
        if literals.length = length ∧ length ≤ capacity then some literals else none

/-- A length is read back. -/
theorem literalLength_replicate (n r : ℕ) (hr : r < 255) (rest : Bytes) : ∀ length,
    literalLength length (List.replicate n 255 ++ UInt8.ofNat r :: rest) =
      some (length + n * 255 + r, rest) := by
  induction n with
  | zero =>
    intro length
    have hvalue : (UInt8.ofNat r).toNat = r := by
      rw [UInt8.toNat_ofNat']
      exact Nat.mod_eq_of_lt (by omega)
    have hne : UInt8.ofNat r ≠ 255 := by
      intro h
      have h' := congrArg UInt8.toNat h
      rw [hvalue] at h'
      exact absurd h' (by change r ≠ 255; omega)
    rw [List.replicate_zero, List.nil_append, literalLength, if_neg hne, hvalue, Nat.zero_mul,
      Nat.add_zero]
  | succ n ih =>
    intro length
    rw [List.replicate_succ, List.cons_append, literalLength, if_pos rfl, ih, Nat.succ_mul]
    congr 2
    omega

theorem decodeLiterals_lastLiterals {source : Bytes} {capacity : ℕ} (h : source.length ≤ capacity) :
    decodeLiterals (lastLiterals source) capacity = some source := by
  unfold decodeLiterals lastLiterals
  split
  · -- There is no room, so the source is empty.
    have hnil : source = [] := List.eq_nil_of_length_eq_zero (by omega)
    rw [hnil]
    decide
  · by_cases hlong : runMask ≤ source.length
    · have htoken : (UInt8.ofNat (runMask * 16)).toNat / 16 = runMask := by decide
      have hlength : runMask + (source.length - runMask) / 255 * 255 +
          (source.length - runMask) % 255 = source.length := by
        have := Nat.div_add_mod' (source.length - runMask) 255
        omega
      rw [if_pos hlong]
      simp only [htoken, if_true]
      rw [literalLength_replicate _ _ (Nat.mod_lt _ (by decide)), hlength]
      simp only
      rw [if_pos ⟨trivial, h⟩]
    · have htoken : (UInt8.ofNat (source.length * 16)).toNat / 16 = source.length := by
        rw [UInt8.toNat_ofNat']
        unfold runMask at hlong
        omega
      rw [if_neg hlong]
      simp only [htoken]
      rw [if_neg (by omega)]
      simp only
      rw [if_pos ⟨trivial, h⟩]

/-- LZ4 without matches. -/
def literalLz4 : Lz4 where
  compressDefault := lastLiterals
  compressHC := lastLiterals
  decompressSafe := decodeLiterals
  length_le := by
    intro block capacity out h
    unfold decodeLiterals at h
    split at h
    · split at h
      · cases h
        exact Nat.zero_le _
      · cases h
    · split at h
      · cases h
      · simp only at h
        split at h
        · cases h
        · split at h
          · next hfit =>
            cases h
            omega
          · cases h

theorem literalLz4_inverts : literalLz4.Inverts :=
  ⟨fun _ _ _ h => decodeLiterals_lastLiterals h, fun _ _ _ h => decodeLiterals_lastLiterals h⟩

end Libgetar.Sqlite
