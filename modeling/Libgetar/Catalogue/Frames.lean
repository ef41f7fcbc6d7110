import Libgetar.Catalogue.Run
import Libgetar.Lib.Shortlex

/-!
# The frames of a record

`queryFrames` copies a `std::set` of indices, sorted by `IndexCompare`: shorter strings come first,
and strings of the same length are compared as strings. That is a strict total order of all strings,
so a set loses no index and keeps none twice.

No index is read as a number. Of decimal numerals without leading zeros the order is still that of
their values, of whatever lengths they are (`shortlex_iff_digitsValue_lt`), so the frames of a
trajectory come in the order of their numbers.
-/

namespace Libgetar

open Lib

/-- `IndexCompare` is the order that puts shorter lists first. -/
theorem indexCompare_eq_shortlex (a b : Bytes) : indexCompare a b = shortlex a b := rfl

/-- `IndexCompare` orders numerals by their values. -/
theorem indexCompare_iff_digitsValue_lt {a b : Bytes} (ha : IsNumeral a) (hb : IsNumeral b) :
    indexCompare a b = true ↔ digitsValue 10 a < digitsValue 10 b := by
  rw [indexCompare_eq_shortlex]
  exact shortlex_iff_digitsValue_lt ha hb

namespace Gtar

variable {σ ε : Type*}

/-- The frames of a record are in order. -/
theorem queryFrames_sorted (g : Gtar σ) (r : Record) :
    (g.queryFrames r).Pairwise fun a b => indexCompare a b = true := by
  unfold queryFrames
  split
  · exact StdMap.keys_sorted _
  · exact List.Pairwise.nil

/-- No frame of a record comes twice. -/
theorem queryFrames_nodup (g : Gtar σ) (r : Record) : (g.queryFrames r).Nodup :=
  (g.queryFrames_sorted r).imp fun h => StrictTotal.ne h

/-- After every run, the frames of a record are the indices that the paths of the file and the
written ones have with the other fields of the record, each once and in the strict order of
`IndexCompare`, which is a strict total order of all strings. When all of them are decimal numerals
without leading zeros, their values increase. -/
theorem frames_sorted {B : Backend σ ε} {archive : σ} {names : List Bytes}
    (h : Names B archive names) (calls : List (GtarOp × ε)) :
    let g := exec (step B) (ofArchive B archive) calls
    let paths := openedNames names ++ (written B (ofArchive B archive) calls).map Prod.fst
    (∀ r : Record,
      (∀ i, (g.queryFrames r).count i = if i ∈ indicesOf paths r.withNullifiedIndex then 1 else 0) ∧
      (g.queryFrames r).Pairwise (fun a b => indexCompare a b = true) ∧
      ((∀ i ∈ indicesOf paths r.withNullifiedIndex, IsNumeral i) →
        (g.queryFrames r).Pairwise fun a b => digitsValue 10 a < digitsValue 10 b)) ∧
    (∀ a, indexCompare a a = false) ∧
    (∀ a b c, indexCompare a b = true → indexCompare b c = true → indexCompare a c = true) ∧
    ∀ a b, (indexCompare a b = true ∧ a ≠ b ∧ indexCompare b a = false) ∨
      (indexCompare a b = false ∧ a = b ∧ indexCompare b a = false) ∨
      (indexCompare a b = false ∧ a ≠ b ∧ indexCompare b a = true) := by
  intro g paths
  have hlists : Lists g paths := (lists_ofArchive h).run B calls
  have hmem (r : Record) (i : Bytes) :
      i ∈ g.queryFrames r ↔ i ∈ indicesOf paths r.withNullifiedIndex := by
    rw [hlists.mem_queryFrames, mem_indicesOf]
  refine ⟨fun r => ⟨fun i => ?_, g.queryFrames_sorted r, fun hnumeral => ?_⟩, StrictTotal.irrefl,
    StrictTotal.trans, StrictTotal.trichotomy⟩
  · rw [(g.queryFrames_nodup r).count]
    exact if_congr (hmem r i) rfl rfl
  · refine (g.queryFrames_sorted r).imp_of_mem fun {a b} ha hb hab => ?_
    have hna := hnumeral a ((hmem r a).mp ha)
    have hnb := hnumeral b ((hmem r b).mp hb)
    exact (indexCompare_iff_digitsValue_lt hna hnb).mp hab

/-- Frames of one and of two digits, one of them written twice. -/
theorem frames_sorted_store :
    (exec (step (storeBackend fun _ => none))
        (ofArchive (storeBackend fun _ => none) [(lit "frames/10/b", [])])
        [(.write .ptr (lit "frames/9/b") [1] .noCompress true, ()),
          (.write .ptr (lit "frames/10/b") [2] .noCompress true, ())]).queryFrames
      (Record.ofPath (lit "frames/0/b")) = [lit "9", lit "10"] ∧
    [lit "9", lit "10"].Pairwise fun a b => digitsValue 10 a < digitsValue 10 b := by
  obtain ⟨hframes, -⟩ := frames_sorted
    (names_storeBackend (fun _ => none) [(lit "frames/10/b", [])])
    [(.write .ptr (lit "frames/9/b") [1] .noCompress true, ()),
      (.write .ptr (lit "frames/10/b") [2] .noCompress true, ())]
  obtain ⟨-, -, hsorted⟩ := hframes (Record.ofPath (lit "frames/0/b"))
  have hlist : (exec (step (storeBackend fun _ => none))
        (ofArchive (storeBackend fun _ => none) [(lit "frames/10/b", [])])
        [(.write .ptr (lit "frames/9/b") [1] .noCompress true, ()),
          (.write .ptr (lit "frames/10/b") [2] .noCompress true, ())]).queryFrames
      (Record.ofPath (lit "frames/0/b")) = [lit "9", lit "10"] := by decide +kernel
  rw [hlist] at hsorted
  exact ⟨hlist, hsorted (by decide +kernel)⟩

end Gtar

end Libgetar
