import Libgetar.Python.Convert
import Libgetar.Record.Order

/-!
# Comparing records in Python

`__richcmp__` and `__hash__` of the class `Record` of `src/gtar/_gtar.pyx`. The six operators compare
two lists of field values, and both lists are made from `self`: the other record is never looked at
(`richcmp_other`). So every record is equal to every other one and below none
(`richcmp_of_decoded`), and the laws of comparison hold between two records exactly if they are the
same (`richcmp_lawful_iff`).

The hash is that of the printed path, so records that should be equal have the same hash. Python's
`hash` of a tuple of a class and a string is a parameter.
-/

namespace Libgetar

open Lib

/-- The values in the lists that are compared. -/
inductive FieldValue where
  | str (s : List Char)
  | int (n : ℕ)
deriving DecidableEq

/-- How two values are ordered that differ. -/
def FieldValue.compare : FieldValue → FieldValue → Except PyError Ordering
  | .str s, .str t => .ok (if s < t then .lt else .gt)
  | .int m, .int n => .ok (if m < n then .lt else .gt)
  | _, _ => .error .typeError

/-- How two lists are ordered: by the first values that differ, or by their lengths. -/
def compareLists : List FieldValue → List FieldValue → Except PyError Ordering
  | [], [] => .ok .eq
  | [], _ :: _ => .ok .lt
  | _ :: _, [] => .ok .gt
  | x :: xs, y :: ys => if x = y then compareLists xs ys else x.compare y

/-- `[rec.getGroup(), rec.getName(), rec.getIndex(), rec.getBehavior(), rec.getFormat(),
rec.getResolution()]`. -/
def fieldValues (r : Record) : Except PyError (List FieldValue) := do
  let group ← unpy3str r.group
  let name ← unpy3str r.name
  let index ← unpy3str r.index
  return [.str (codePoints group), .str (codePoints name), .str (codePoints index),
    .int r.behavior.rank, .int r.format.rank, .int r.resolution.rank]

/-- The operators of lists, by their numbers. -/
def compareOp (op : ℤ) (xs ys : List FieldValue) : Except PyError Bool :=
  match op with
  | 0 => (compareLists xs ys).map (· == .lt)
  | 1 => (compareLists xs ys).map (· != .gt)
  | 2 => .ok (decide (xs = ys))
  | 3 => .ok (decide (xs ≠ ys))
  | 4 => (compareLists xs ys).map (· == .gt)
  | 5 => (compareLists xs ys).map (· != .lt)
  | _ => .error .typeError

/-- `__richcmp__`. The values that `self` is compared with are its own. -/
def richcmp (self _other : Record) (op : ℤ) : Except PyError Bool := do
  let selfVals ← fieldValues self
  let otherVals ← fieldValues self
  compareOp op selfVals otherVals

/-- `__repr__`. -/
def reprRecord (r : Record) : Except PyError Bytes := do
  let path ← unpy3str r.getPath
  return lit "Record(\"" ++ path ++ lit "\")"

/-- `__hash__`. -/
def hashRecord (hash : Bytes → ℤ) (r : Record) : Except PyError ℤ := (reprRecord r).map hash

/-! ## The laws -/

section
variable (hash : Bytes → ℤ) (a b : Record)

/-- What the operators should say about two records. -/
structure Lawful : Prop where
  /-- `==` is `operator==`. -/
  eq : richcmp a b 2 = .ok (a.eq b)
  /-- `!=` is its negation. -/
  ne : richcmp a b 3 = .ok (!a.eq b)
  /-- Exactly one of `a < b`, `a == b` and `b < a` holds. -/
  trichotomy :
    richcmp a b 0 = .ok true ∧ richcmp a b 2 = .ok false ∧ richcmp b a 0 = .ok false ∨
    richcmp a b 0 = .ok false ∧ richcmp a b 2 = .ok true ∧ richcmp b a 0 = .ok false ∨
    richcmp a b 0 = .ok false ∧ richcmp a b 2 = .ok false ∧ richcmp b a 0 = .ok true
  /-- `a > b` is `b < a`. -/
  gt : richcmp a b 4 = richcmp b a 0
  /-- `a <= b` is `a < b` or `a == b`. -/
  le : ∀ lt eq, richcmp a b 0 = .ok lt → richcmp a b 2 = .ok eq → richcmp a b 1 = .ok (lt || eq)
  /-- `a >= b` is `a > b` or `a == b`. -/
  ge : ∀ gt eq, richcmp a b 4 = .ok gt → richcmp a b 2 = .ok eq → richcmp a b 5 = .ok (gt || eq)
  /-- `<` is transitive. -/
  trans : ∀ c, richcmp a b 0 = .ok true → richcmp b c 0 = .ok true → richcmp a c 0 = .ok true
  /-- Equal records have a hash, and the same one. -/
  hash : richcmp a b 2 = .ok true → ∃ h, hashRecord hash a = .ok h ∧ hashRecord hash b = .ok h

end

/-- The strings of a record are UTF-8. -/
structure Record.Decoded (r : Record) : Prop where
  group : IsUtf8 r.group
  name : IsUtf8 r.name
  index : IsUtf8 r.index

/-! ## What the operators say -/

/-- The other record is not looked at. -/
theorem richcmp_other (a b c : Record) (op : ℤ) : richcmp a b op = richcmp a c op := rfl

/-- A list is as high as itself. -/
theorem compareLists_self (xs : List FieldValue) : compareLists xs xs = .ok .eq := by
  induction xs with
  | nil => rfl
  | cons x xs ih => rw [compareLists, if_pos rfl, ih]

/-- The values of a record are there when its strings are UTF-8. -/
theorem exists_fieldValues_iff {r : Record} : (∃ vals, fieldValues r = .ok vals) ↔ r.Decoded := by
  simp only [fieldValues, bind_eq_ok_iff, unpy3str_eq_ok_iff]
  constructor
  · rintro ⟨_, _, ⟨hgroup, -⟩, _, ⟨hname, -⟩, _, ⟨hindex, -⟩, -⟩
    exact ⟨hgroup, hname, hindex⟩
  · intro h
    exact ⟨_, _, ⟨h.group, rfl⟩, _, ⟨h.name, rfl⟩, _, ⟨h.index, rfl⟩, rfl⟩

/-- A record is compared with itself. -/
theorem richcmp_of_fieldValues {a : Record} {vals : List FieldValue} (h : fieldValues a = .ok vals)
    (b : Record) (op : ℤ) : richcmp a b op = compareOp op vals vals := by
  rw [richcmp, h]
  rfl

/-- A record is equal to every other one. -/
theorem richcmp_of_decoded {a : Record} (ha : a.Decoded) (b : Record) :
    richcmp a b 0 = .ok false ∧ richcmp a b 1 = .ok true ∧ richcmp a b 2 = .ok true ∧
      richcmp a b 3 = .ok false ∧ richcmp a b 4 = .ok false ∧ richcmp a b 5 = .ok true := by
  obtain ⟨vals, hvals⟩ := exists_fieldValues_iff.mpr ha
  simp only [richcmp_of_fieldValues hvals, compareOp, compareLists_self, ne_eq, not_true_eq_false,
    decide_true, decide_false]
  exact ⟨rfl, rfl, trivial, trivial, rfl, rfl⟩

/-- A record whose strings are UTF-8 has a hash. -/
theorem hashRecord_of_decoded (hash : Bytes → ℤ) {a : Record} (ha : a.Decoded) :
    hashRecord hash a = .ok (hash (lit "Record(\"" ++ a.getPath ++ lit "\")")) := by
  have hpath : unpy3str a.getPath = .ok a.getPath :=
    unpy3str_eq_ok_iff.mpr ⟨a.isUtf8_getPath.mpr ⟨ha.group, fun _ => ha.index, ha.name⟩, rfl⟩
  rw [hashRecord, reprRecord, hpath]
  rfl

/-- The operators say about two records what they should, exactly if the records are the same and
their strings are UTF-8. -/
theorem richcmp_lawful_iff (hash : Bytes → ℤ) (a b : Record) :
    Lawful hash a b ↔ a = b ∧ a.Decoded := by
  constructor
  · intro h
    -- A comparison that returns something has decoded the strings, and then the records are equal.
    have hdecoded : a.Decoded := by
      obtain ⟨vals, hvals, -⟩ := bind_eq_ok_iff.mp h.eq
      exact exists_fieldValues_iff.mp ⟨vals, hvals⟩
    obtain ⟨-, -, heq, -⟩ := richcmp_of_decoded hdecoded b
    have hsame : a.eq b = true := Except.ok.inj (h.eq.symm.trans heq)
    exact ⟨Record.eq_iff.mp hsame, hdecoded⟩
  · rintro ⟨rfl, ha⟩
    obtain ⟨hlt, hle, heq, hne, hgt, hge⟩ := richcmp_of_decoded ha a
    have hsame : a.eq a = true := Record.eq_iff.mpr rfl
    refine
      { eq := by rw [heq, hsame]
        ne := by rw [hne, hsame]; rfl
        trichotomy := Or.inr (Or.inl ⟨hlt, heq, hlt⟩)
        gt := by rw [hgt, hlt]
        le := ?_
        ge := ?_
        trans := ?_
        hash := fun _ => ⟨_, hashRecord_of_decoded hash ha, hashRecord_of_decoded hash ha⟩ }
    · intro lt eq hlt' heq'
      obtain rfl := Except.ok.inj (heq.symm.trans heq')
      rw [hle, Bool.or_true]
    · intro gt eq hgt' heq'
      obtain rfl := Except.ok.inj (heq.symm.trans heq')
      rw [hge, Bool.or_true]
    · intro c hac _
      cases hlt.symm.trans hac

/-- The records of `a.txt` and `b.txt` are equal in Python, and their hashes are not the same, where
`operator==` says that they differ. -/
theorem richcmp_lawful_counterexample :
    richcmp { name := lit "a.txt" } { name := lit "b.txt" } 2 = .ok true ∧
      Record.eq { name := lit "a.txt" } { name := lit "b.txt" } = false ∧
      hashRecord (fun s => s.length + s.sum.toNat) { name := lit "a.txt" } ≠
        hashRecord (fun s => s.length + s.sum.toNat) { name := lit "b.txt" } ∧
      richcmp { name := lit "a.txt" } { name := lit "b.txt" } 0 = .ok false ∧
      ¬Lawful (fun s => s.length + s.sum.toNat) { name := lit "a.txt" } { name := lit "b.txt" } := by
  have heq : richcmp { name := lit "a.txt" } { name := lit "b.txt" } 2 = .ok true := by
    decide +kernel
  have hne : Record.eq { name := lit "a.txt" } { name := lit "b.txt" } = false := by decide +kernel
  refine ⟨heq, hne, by decide +kernel, by decide +kernel, fun h => ?_⟩
  have hsame := h.eq
  rw [heq, hne] at hsame
  cases hsame

end Libgetar
