import Libgetar.Zip.Model
import Libgetar.Catalogue.Read

/-!
# The path map of a zip archive

The map finds for every path the index of the last entry with this name (`Tracks`). The loop over the
entries makes that so when the file is opened (`tracks_ofArchive`), and an addition keeps it, since
the new entry has the last index (`Tracks.writePtr`); where nothing is added, nothing changes. So a
read gives what a search through the entries from the end would find (`Tracks.read`), after every run
(`zip_reads_last`).

A path with a zero byte would be added under what is in front of it.
-/

namespace Libgetar

open Lib

/-! ## Indices of entries -/

/-- The names of the entries with their indices. -/
def indexLog (entries : Store) : List (Bytes × ℕ) := entries.zipIdx.map fun e => (e.1.1, e.2)

/-- One more entry has the next index. -/
theorem indexLog_concat (entries : Store) (e : Bytes × Bytes) :
    indexLog (entries ++ [e]) = indexLog entries ++ [(e.1, entries.length)] := by
  rw [indexLog, List.zipIdx_append, List.map_append, ← indexLog, Nat.zero_add]
  rfl

/-- The last index of a name is that of the last entry with the name. -/
theorem getElem?_of_lastWrite_indexLog {entries : Store} {path : Bytes} :
    ∀ {i : ℕ}, lastWrite (indexLog entries) path = some i →
      i < entries.length ∧ entries[i]?.map Prod.snd = lastWrite entries path := by
  induction entries using List.reverseRecOn with
  | nil =>
    intro i h
    cases h
  | append_singleton entries e ih =>
    intro i h
    rw [indexLog_concat, lastWrite_concat] at h
    rw [lastWrite_concat, List.length_append, List.length_singleton]
    by_cases hpath : path = e.1
    · rw [if_pos hpath] at h
      obtain rfl := Option.some.inj h
      refine ⟨Nat.lt_succ_self _, ?_⟩
      rw [if_pos hpath, List.getElem?_concat_length, Option.map_some]
    · rw [if_neg hpath] at h
      obtain ⟨hlt, hget⟩ := ih h
      refine ⟨by omega, ?_⟩
      rw [if_neg hpath, List.getElem?_append_left hlt, hget]

/-- A name without an index is not written. -/
theorem lastWrite_eq_none_of_indexLog {entries : Store} {path : Bytes}
    (h : lastWrite (indexLog entries) path = none) : lastWrite entries path = none := by
  rw [lastWrite_eq_none_iff] at h ⊢
  have hkeys : (indexLog entries).map Prod.fst = entries.map Prod.fst := by
    rw [indexLog, List.map_map]
    calc entries.zipIdx.map (fun e => e.1.1) = (entries.zipIdx.map Prod.fst).map Prod.fst := by
          rw [List.map_map]; rfl
      _ = entries.map Prod.fst := by rw [List.zipIdx_map_fst]
  rw [hkeys] at h
  exact h

namespace ZipArchive

/-- The map finds the last index of every name. -/
def Tracks (a : ZipArchive) : Prop :=
  ∀ path, a.pathMap.find? path = lastWrite (indexLog a.archive.entries) path

variable {a : ZipArchive}

/-- The names of the items are those of the entries. -/
theorem getItemName_eq {i : ℕ} (h : i < a.archive.entries.length) :
    a.getItemName i = (a.archive.entries[i]).1 := by
  rw [getItemName, MzZipArchive.readerGetFilename, List.getElem?_eq_getElem h]
  rfl

theorem map_getItemName (a : ZipArchive) :
    (List.range a.size).map a.getItemName = a.archive.entries.map Prod.fst := by
  refine List.ext_getElem ?_ fun i hi hi' => ?_
  · rw [List.length_map, List.length_map, List.length_range]
    rfl
  · rw [List.length_map] at hi'
    rw [List.getElem_map, List.getElem_map, List.getElem_range, getItemName_eq hi']

/-- The loop at the opening makes the map. -/
theorem tracks_ofArchive (mode : OpenMode) (z : MzZipArchive) : (ofArchive mode z).Tracks := by
  intro path
  have hlog : indexLog z.entries =
      (List.range z.entries.length).map fun i => (getItemName ⟨mode, z, .empty⟩ i, i) := by
    refine List.ext_getElem ?_ fun i hi hi' => ?_
    · rw [indexLog, List.length_map, List.length_zipIdx, List.length_map, List.length_range]
    · rw [List.length_map, List.length_range] at hi'
      have hname := getItemName_eq (a := ⟨mode, z, .empty⟩) hi'
      rw [List.getElem_map, List.getElem_range, hname]
      simp [indexLog]
  have hfill : (ofArchive mode z).pathMap = StdMap.insertAll .empty (indexLog z.entries) := by
    rw [hlog, StdMap.insertAll, List.foldl_map]
    rfl
  rw [hfill, StdMap.find?_insertAll]
  rfl

/-! ## Calls -/

/-- A write that does not return normally changes nothing. One that does adds an entry, and the index
of this entry is in the map. -/
theorem writePtr_spec (a : ZipArchive) (w : Write) (env : ZipEnv) :
    ((a.writePtr w env).2 ≠ .done ∧ (a.writePtr w env).1 = a) ∨
      ((a.writePtr w env).2 = .done ∧
        (a.writePtr w env).1.archive.entries = a.archive.entries ++ [(cStr w.path, w.contents)] ∧
        (a.writePtr w env).1.pathMap = a.pathMap.insert w.path a.archive.entries.length) := by
  unfold writePtr
  by_cases hmode : a.mode = .read
  · rw [if_pos hmode]
    refine Or.inl ⟨?_, rfl⟩
    intro h
    cases h
  rw [if_neg hmode]
  rcases henv : env.error with - | message
  · by_cases hcount : a.archive.entries.length + 1 < 2 ^ 32
    · right
      simp only [MzZipArchive.writerAddMem, henv, hcount, dite_true, size,
        MzZipArchive.readerGetNumFiles, List.length_append, List.length_singleton, true_and]
      -- The size is that of the entries with the new one, so there is no wrap below zero.
      have hindex : (a.archive.entries.length + 1 + (2 ^ 32 - 1)) % 2 ^ 32 =
          a.archive.entries.length := by omega
      rw [hindex]
    · left
      simp only [MzZipArchive.writerAddMem, henv, hcount, dite_false]
      refine ⟨?_, trivial⟩
      intro h
      cases h
  · -- miniz does not take the entry.
    left
    simp only [MzZipArchive.writerAddMem, henv]
    refine ⟨?_, trivial⟩
    intro h
    cases h

/-- What the call writes, if it is a write that returns normally. -/
def accepted? (a : ZipArchive) (c : Call × ZipEnv) : Option (Bytes × Bytes) :=
  match c with
  | (.writePtr w, env) => if (a.writePtr w env).2 = .done then some (w.path, w.contents) else none
  | (.read _, _) => none

/-- What the calls write, in order. -/
def accepted : ZipArchive → List (Call × ZipEnv) → Store
  | _, [] => []
  | a, c :: calls => (accepted? a c).toList ++ accepted (step a c).1 calls

/-- The path of the call has no zero byte, if it is a write. -/
def NoNul (c : Call × ZipEnv) : Prop :=
  match c.1 with
  | .writePtr w => 0 ∉ w.path
  | .read _ => True

instance (c : Call × ZipEnv) : Decidable (NoNul c) := by
  unfold NoNul
  cases c.1 <;> infer_instance

/-- One call keeps the map right, and appends what it writes. -/
theorem Tracks.step (h : a.Tracks) {c : Call × ZipEnv} (hc : NoNul c) :
    (ZipArchive.step a c).1.Tracks ∧ (ZipArchive.step a c).1.archive.entries =
      a.archive.entries ++ (accepted? a c).toList := by
  obtain ⟨call, env⟩ := c
  cases call with
  | read path =>
    -- A read changes nothing.
    rw [accepted?, Option.toList_none, List.append_nil]
    exact ⟨h, rfl⟩
  | writePtr w =>
    rw [ZipArchive.step, accepted?]
    rcases writePtr_spec a w env with ⟨hne, hsame⟩ | ⟨hdone, hentries, hmap⟩
    · -- The write throws.
      rw [if_neg hne, hsame, Option.toList_none, List.append_nil]
      exact ⟨h, rfl⟩
    · rw [cStr_eq_self hc] at hentries
      rw [if_pos hdone, Option.toList_some]
      refine ⟨fun path => ?_, hentries⟩
      rw [hmap, hentries, indexLog_concat, lastWrite_concat, StdMap.find?_insert, h path]

/-- A run. -/
theorem Tracks.run {calls : List (Call × ZipEnv)} :
    ∀ {a : ZipArchive}, a.Tracks → (∀ c ∈ calls, NoNul c) →
      (exec ZipArchive.step a calls).Tracks ∧ (exec ZipArchive.step a calls).archive.entries =
        a.archive.entries ++ accepted a calls := by
  induction calls with
  | nil =>
    intro a h _
    rw [exec_nil, accepted, List.append_nil]
    exact ⟨h, rfl⟩
  | cons c calls ih =>
    intro a h hcalls
    obtain ⟨hc, hcalls⟩ := List.forall_mem_cons.mp hcalls
    obtain ⟨hnext, hentries⟩ := h.step hc
    obtain ⟨hend, hall⟩ := ih hnext hcalls
    refine ⟨hend, ?_⟩
    rw [exec_cons, hall, hentries, accepted, List.append_assoc]

/-- A read gives the contents of the last entry with the name. -/
theorem Tracks.read (h : a.Tracks) (path : Bytes) :
    a.read path = .array (lastWrite a.archive.entries path) := by
  rw [ZipArchive.read, h path]
  rcases hfound : lastWrite (indexLog a.archive.entries) path with - | i
  · rw [lastWrite_eq_none_of_indexLog hfound]
  · obtain ⟨hlt, hget⟩ := getElem?_of_lastWrite_indexLog hfound
    rw [← hget, List.getElem?_eq_getElem hlt]
    simp only [MzZipArchive.readerExtract, List.getElem?_eq_getElem hlt]
    rfl

/-- A search through the entries from the end. -/
def searchFromEnd (entries : Store) (path : Bytes) : Option Bytes :=
  (entries.reverse.find? fun e => decide (path = e.1)).map Prod.snd

/-- After every run of calls whose paths have no zero byte, a read gives the contents of the last
entry with the path, which a search through the entries from the end finds, or a null array if there
is none; and the entries are those that were there when the file was opened, and then the accepted
writes in their order, with the item names being theirs. -/
theorem zip_reads_last (mode : OpenMode) (z : MzZipArchive) (calls : List (Call × ZipEnv))
    (hcalls : ∀ c ∈ calls, NoNul c) :
    let a := exec step (ofArchive mode z) calls
    let log := z.entries ++ accepted (ofArchive mode z) calls
    (∀ path, a.read path = .array (searchFromEnd log path)) ∧ a.archive.entries = log ∧
      (List.range a.size).map a.getItemName = log.map Prod.fst := by
  intro a log
  obtain ⟨htracks, hentries⟩ := (tracks_ofArchive mode z).run hcalls
  have hlog : a.archive.entries = log := hentries
  refine ⟨fun path => ?_, hlog, ?_⟩
  · rw [htracks.read, searchFromEnd, ← lastWrite_eq_find?_reverse, hentries]
    rfl
  · rw [map_getItemName, hlog]

/-- A name comes twice in the file, a write to it succeeds, and another one fails. -/
theorem zip_reads_last_twice :
    let z : MzZipArchive := ⟨[(lit "a", [1]), (lit "b", [2]), (lit "a", [3])], by decide⟩
    let a := exec step (ofArchive .append z)
      [(.writePtr ⟨lit "b", [4], .noCompress, true⟩, {}),
        (.writePtr ⟨lit "a", [5], .noCompress, true⟩, { error := some (lit "invalid filename") })]
    a.read (lit "a") = .array (some [3]) ∧ a.read (lit "b") = .array (some [4]) ∧
      a.read (lit "c") = .array none := by
  intro z a
  obtain ⟨hread, -⟩ := zip_reads_last .append z
    [(.writePtr ⟨lit "b", [4], .noCompress, true⟩, {}),
      (.writePtr ⟨lit "a", [5], .noCompress, true⟩, { error := some (lit "invalid filename") })]
    (by decide +kernel)
  refine ⟨(hread _).trans ?_, (hread _).trans ?_, (hread _).trans ?_⟩
  · decide +kernel
  · decide +kernel
  · decide +kernel

/-! ## The backend -/

/-- An archive with the entries of a log. -/
def Keeps (a : ZipArchive) (log : Store) : Prop := a.Tracks ∧ a.archive.entries = log

/-- A write that miniz takes, to a path without a zero byte. -/
structure Succeeds (a : ZipArchive) (w : Write) (env : ZipEnv) : Prop where
  mode : a.mode ≠ .read
  error : env.error = none
  count : a.archive.entries.length + 1 < 2 ^ 32
  nul : 0 ∉ w.path

/-- What miniz takes is written. -/
theorem Succeeds.done {w : Write} {env : ZipEnv} (h : a.Succeeds w env) :
    (a.writePtr w env).2 = .done := by
  simp only [writePtr, if_neg h.mode, MzZipArchive.writerAddMem, h.error, h.count, dite_true]

end ZipArchive

/-- The zip backend. -/
def zipBackend : Backend ZipArchive ZipEnv where
  writePtr := ZipArchive.writePtr
  beginBulkWrites a _ := a
  endBulkWrites a _ := a
  read a path _ := (a, a.read path)
  size := ZipArchive.size
  getItemName := ZipArchive.getItemName

/-- A zip file keeps contents under the exact path. -/
theorem zipBackend_exact : zipBackend.Exact ZipArchive.Keeps ZipArchive.Succeeds where
  writePtr := by
    rintro a log ⟨htracks, rfl⟩ w env hw
    have hdone := hw.done
    obtain ⟨hnext, hentries⟩ := htracks.step (c := (.writePtr w, env)) hw.nul
    rw [ZipArchive.accepted?, if_pos hdone] at hentries
    exact ⟨hdone, hnext, hentries⟩
  beginBulkWrites h _ := h
  endBulkWrites h _ := h
  read := by
    rintro a log ⟨htracks, rfl⟩ path env
    exact ⟨htracks.read path, htracks, rfl⟩

/-- The items of a zip file are its entries. -/
theorem names_zipBackend (a : ZipArchive) :
    Gtar.Names zipBackend a (a.archive.entries.map Prod.fst) where
  size := by
    rw [List.length_map, Nat.mod_eq_of_lt a.archive.count]
    rfl
  getItemName i h := by
    rw [List.length_map] at h
    rw [List.get_eq_getElem, List.getElem_map]
    exact ZipArchive.getItemName_eq h

end Libgetar
