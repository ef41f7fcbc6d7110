import Libgetar.Record.Model
import Libgetar.Lib.StdMap

/-!
# The order of records

`operator<` compares six fields by nested calls of `lthelper`, each of which is given the result for
the fields behind it. It does so in another order than `operator==`, which only says whether all
fields are the same. The two agree: `operator<` is the lexicographic order of the fields
(`Record.lt_eq_orderKeyLt`), so of two records exactly one is below the other or they are the same.

That is what a `std::map` with records as its keys needs. Whatever is done with such a map through
`m[rec]`, it has one entry for each record that it was asked for, and a lookup finds what the calls
for this record have made of it (`find?_mapAfter`).
-/

namespace Libgetar

open Lib

namespace Record

/-- `operator==`. -/
def eq (a b : Record) : Bool :=
  decide (a.group = b.group) && decide (a.name = b.name) && decide (a.index = b.index) &&
    decide (a.behavior = b.behavior) && decide (a.format = b.format) &&
    decide (a.resolution = b.resolution)

/-- `operator!=`. -/
def ne (a b : Record) : Bool := !a.eq b

/-- `operator==` compares all the fields. -/
theorem eq_iff {a b : Record} : a.eq b = true ↔ a = b := by
  obtain ⟨group, name, index, behavior, format, resolution⟩ := a
  obtain ⟨group', name', index', behavior', format', resolution'⟩ := b
  simp only [eq, Bool.and_eq_true, decide_eq_true_eq, mk.injEq, and_assoc]

/-- Two records that differ are not equal for `operator==`. -/
theorem eq_eq_false_iff {a b : Record} : a.eq b = false ↔ a ≠ b := by
  rw [← Bool.not_eq_true, eq_iff]

end Record

/-! ## Maps from records -/

variable {ν : Type*}

/-- What the calls `m[rec] = f(m[rec])` for one record make of its value. -/
def valueOf (calls : List (Record × (Option ν → ν))) (r : Record) : Option ν :=
  (calls.filter fun c => r.eq c.1).foldl (fun v c => some (c.2 v)) none

/-- The map after the calls. -/
def mapAfter (calls : List (Record × (Option ν → ν))) : StdMap Record ν Record.lt :=
  calls.foldl (fun m c => m.upsert c.1 c.2) .empty

/-- A lookup finds what the calls for the record have made. -/
theorem find?_mapAfter (calls : List (Record × (Option ν → ν))) (r : Record) :
    (mapAfter calls).find? r = valueOf calls r := by
  induction calls using List.reverseRecOn with
  | nil => rfl
  | append_singleton calls c ih =>
    rw [mapAfter] at ih
    rw [mapAfter, valueOf, List.foldl_append, List.foldl_cons, List.foldl_nil, StdMap.find?_upsert,
      List.filter_append, List.foldl_append]
    by_cases hr : r = c.1
    · subst hr
      have hlast : [c].filter (fun d => c.1.eq d.1) = [c] := by simp [Record.eq_iff.mpr rfl]
      rw [if_pos rfl, ih, hlast]
      rfl
    · have hlast : [c].filter (fun d => r.eq d.1) = [] := by simp [Record.eq_eq_false_iff.mpr hr]
      rw [if_neg hr, ih, hlast]
      rfl

/-- The keys of the map are the records of the calls. -/
theorem mem_keys_mapAfter (calls : List (Record × (Option ν → ν))) (r : Record) :
    r ∈ (mapAfter calls).keys ↔ r ∈ calls.map Prod.fst := by
  induction calls using List.reverseRecOn with
  | nil => simp [mapAfter]
  | append_singleton calls c ih =>
    rw [mapAfter] at ih
    rw [mapAfter, List.foldl_append, List.foldl_cons, List.foldl_nil, StdMap.mem_keys_upsert, ih,
      List.map_append, List.mem_append, List.map_singleton, List.mem_singleton, or_comm]

/-- No key comes twice. -/
theorem nodup_keys (m : StdMap Record ν Record.lt) : m.keys.Nodup :=
  (StdMap.keys_sorted m).imp fun h => StrictTotal.ne h

namespace Record

/-- `operator<` is irreflexive and transitive, and of two records exactly one is below the other or
they are equal. A map from records has one entry for each record that it was asked for, finds each of
them, and what it finds is what the calls for this record have made. -/
theorem order_laws :
    (∀ a : Record, a.lt a = false) ∧
    (∀ a b c : Record, a.lt b = true → b.lt c = true → a.lt c = true) ∧
    (∀ a b : Record, (a.lt b = true ∧ a.eq b = false ∧ b.lt a = false) ∨
      (a.lt b = false ∧ a.eq b = true ∧ b.lt a = false) ∨
      (a.lt b = false ∧ a.eq b = false ∧ b.lt a = true)) ∧
    ∀ (calls : List (Record × (Option ν → ν))) (r : Record),
      (mapAfter calls).keys.countP r.eq = (if r ∈ calls.map Prod.fst then 1 else 0) ∧
      (r ∈ calls.map Prod.fst → ∃ v, (mapAfter calls).find? r = some v) ∧
      (mapAfter calls).find? r = valueOf calls r := by
  refine ⟨StrictTotal.irrefl, StrictTotal.trans, fun a b => ?_, fun calls r => ⟨?_, ?_, ?_⟩⟩
  · rw [eq_eq_false_iff, eq_iff]
    exact StrictTotal.trichotomy a b
  · -- The keys that are equal to the record are the record, which comes at most once.
    have hcount : (mapAfter calls).keys.countP r.eq = (mapAfter calls).keys.count r := by
      rw [List.count]
      refine List.countP_congr fun s _ => ?_
      rw [eq_iff, beq_iff_eq]
      exact eq_comm
    rw [hcount, (nodup_keys _).count]
    exact if_congr (mem_keys_mapAfter calls r) rfl rfl
  · intro hr
    exact StdMap.mem_keys_iff.mp ((mem_keys_mapAfter calls r).mpr hr)
  · exact find?_mapAfter calls r

end Record

end Libgetar
