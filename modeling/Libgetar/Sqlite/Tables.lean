import Libgetar.Sqlite.Model

/-!
# What a write means for the tables

The archive without its statements and transactions: a write stores the row and the chunks of its
record (`Db.store`), replacing the rows that have the same keys and no others, and a read puts
together the rows that it finds (`Db.read`). Every lookup after a write is known
(`find?_fileList_store`, `find?_fileContents_store`), and the chunks that the query returns for a path
are the lookups in the order of the indices (`chunksOf_eq`).

A write that is not finished has some of its rows in the tables (`Partly`) and the first chunks
(`Filled`). Whatever rows these are, when the chunks are all there the tables are those of a whole
write (`Partly.eq_attempt`), and other paths are not concerned (`Partly.rows`).
-/

namespace Libgetar.Sqlite

open Lib

/-- The row of a record. -/
def Encoded.row (e : Encoded) : FileRow :=
  ⟨e.uncompressedSize, e.compressedSize, e.compressLevel⟩

namespace Db

/-- The chunks are inserted under consecutive indices. -/
def insertChunksFrom (path : Bytes) : ℕ → List Bytes → Db → Db
  | _, [], db => db
  | chunkidx, chunk :: rest, db =>
    insertChunksFrom path (chunkidx + 1) rest (db.insertChunk path chunkidx chunk)

/-- A record is stored, with or without its row of `file_list`. -/
def attempt (db : Db) (path : Bytes) (e : Encoded) (row : Bool) : Db :=
  insertChunksFrom path 0 e.chunks (if row then db.insertFile path e.row else db)

/-- A record is stored. -/
def store (db : Db) (path : Bytes) (e : Encoded) : Db := db.attempt path e true

/-- A record is read. -/
def read (lz4 : Lz4) (fresh : ℕ → UInt8) (db : Db) (path : Bytes) : Answer :=
  match db.rows path with
  | [] => .array none
  | first :: rest =>
    assemble lz4 arrayBound fresh path first.1.uncompressedSize first.1.compressLevel
      ((first :: rest).map Prod.snd)

/-! ## Lookups -/

/-- Tables with the same lookups are the same. -/
theorem ext_find? {db db' : Db} (hfile : ∀ path, db.fileList.find? path = db'.fileList.find? path)
    (hcontents : ∀ key, db.fileContents.find? key = db'.fileContents.find? key) : db = db' :=
  Db.ext (StdMap.ext_find? hfile) (StdMap.ext_find? hcontents)

theorem fileList_insertChunksFrom (path : Bytes) (chunks : List Bytes) (db : Db) (chunkidx : ℕ) :
    (insertChunksFrom path chunkidx chunks db).fileList = db.fileList := by
  induction chunks generalizing db chunkidx with
  | nil => rfl
  | cons chunk rest ih =>
    rw [insertChunksFrom, ih]
    rfl

/-- The chunks after the insertion of a list of them: those of the list, where it has an index, and
the old ones elsewhere. -/
theorem find?_insertChunksFrom (path : Bytes) (chunks : List Bytes) (db : Db) (chunkidx : ℕ)
    (key : Bytes × ℕ) :
    (insertChunksFrom path chunkidx chunks db).fileContents.find? key =
      if key.1 = path ∧ chunkidx ≤ key.2 ∧ key.2 < chunkidx + chunks.length then
        chunks[key.2 - chunkidx]?
      else db.fileContents.find? key := by
  induction chunks generalizing db chunkidx with
  | nil =>
    rw [insertChunksFrom, if_neg]
    rw [List.length_nil]
    omega
  | cons chunk rest ih =>
    have hinsert : (db.insertChunk path chunkidx chunk).fileContents.find? key =
        if key = (path, chunkidx) then some chunk else db.fileContents.find? key :=
      StdMap.find?_insert _ _ _ _
    rw [insertChunksFrom, ih, hinsert, List.length_cons]
    by_cases hpath : key.1 = path
    · rcases lt_trichotomy key.2 chunkidx with hlt | heq | hgt
      · -- In front of the list.
        have hne : key ≠ (path, chunkidx) := by
          rintro rfl
          exact lt_irrefl _ hlt
        rw [if_neg (by omega), if_neg hne, if_neg (by omega)]
      · -- The first chunk of the list.
        rw [if_neg (by omega), if_pos (Prod.ext hpath heq), if_pos ⟨hpath, by omega, by omega⟩, heq,
          Nat.sub_self, List.getElem?_cons_zero]
      · -- Behind the first chunk, or behind the list.
        have hne : key ≠ (path, chunkidx) := by
          rintro rfl
          exact lt_irrefl _ hgt
        have hindex : key.2 - chunkidx = key.2 - (chunkidx + 1) + 1 := by omega
        rw [if_neg hne, hindex, List.getElem?_cons_succ]
        congr 1
        simp only [hpath, true_and, eq_iff_iff]
        omega
    · -- Another path.
      have hne : key ≠ (path, chunkidx) := by
        rintro rfl
        exact hpath rfl
      rw [if_neg (by tauto), if_neg hne, if_neg (by tauto)]

theorem find?_fileList_attempt (db : Db) (path : Bytes) (e : Encoded) (row : Bool) (path' : Bytes) :
    (db.attempt path e row).fileList.find? path' =
      if path' = path ∧ row = true then some e.row else db.fileList.find? path' := by
  rw [attempt, fileList_insertChunksFrom]
  cases row with
  | false => simp
  | true => simp [insertFile, StdMap.find?_insert]

theorem find?_fileContents_attempt (db : Db) (path : Bytes) (e : Encoded) (row : Bool)
    (key : Bytes × ℕ) : (db.attempt path e row).fileContents.find? key =
      if key.1 = path ∧ key.2 < e.chunks.length then e.chunks[key.2]?
      else db.fileContents.find? key := by
  rw [attempt, find?_insertChunksFrom]
  simp only [Nat.zero_le, true_and, Nat.zero_add, Nat.sub_zero]
  cases row with
  | false => rfl
  | true => rfl

/-- The rows of `file_list` after a write. -/
theorem find?_fileList_store (db : Db) (path : Bytes) (e : Encoded) (path' : Bytes) :
    (db.store path e).fileList.find? path' =
      if path' = path then some e.row else db.fileList.find? path' := by
  rw [store, find?_fileList_attempt]
  simp only [and_true]

/-- The rows of `file_contents` after a write: rows of the path behind the new chunks stay. -/
theorem find?_fileContents_store (db : Db) (path : Bytes) (e : Encoded) (key : Bytes × ℕ) :
    (db.store path e).fileContents.find? key =
      if key.1 = path ∧ key.2 < e.chunks.length then e.chunks[key.2]?
      else db.fileContents.find? key :=
  find?_fileContents_attempt db path e true key

/-! ## Queries -/

/-- The chunks of a path are determined by the lookups. -/
theorem chunksOf_congr {db db' : Db} {path : Bytes}
    (h : ∀ i, db.fileContents.find? (path, i) = db'.fileContents.find? (path, i)) :
    db.chunksOf path = db'.chunksOf path := by
  unfold chunksOf
  congr 1
  refine StdMap.eq_of_mem_iff (r := lexLt bytesLt natLt) (db.fileContents.sorted.filter _)
    (db'.fileContents.sorted.filter _) ?_
  rintro ⟨⟨path', i⟩, chunk⟩
  simp only [List.mem_filter, decide_eq_true_eq, ← StdMap.find?_eq_some_iff]
  constructor
  · rintro ⟨hfind, rfl⟩
    exact ⟨(h i).symm.trans hfind, rfl⟩
  · rintro ⟨hfind, rfl⟩
    exact ⟨(h i).trans hfind, rfl⟩

/-- When the lookups of a path are those of a list, its chunks are the list. -/
theorem chunksOf_eq {db : Db} {path : Bytes} {chunks : List Bytes}
    (h : ∀ i, db.fileContents.find? (path, i) = chunks[i]?) : db.chunksOf path = chunks := by
  let listed : List ((Bytes × ℕ) × Bytes) := chunks.zipIdx.map fun c => ((path, c.2), c.1)
  have hsorted : listed.Pairwise fun a b => lexLt bytesLt natLt a.1 b.1 = true := by
    rw [List.pairwise_map, List.pairwise_iff_getElem]
    intro i j hi hj hij
    simp only [List.getElem_zipIdx, lexLt, StrictTotal.irrefl, Bool.not_false, Bool.true_and,
      Bool.false_or, natLt, decide_eq_true_eq]
    omega
  have hentries : db.fileContents.entries.filter (fun e => e.1.1 = path) = listed := by
    refine StdMap.eq_of_mem_iff (r := lexLt bytesLt natLt) (db.fileContents.sorted.filter _) hsorted ?_
    rintro ⟨⟨path', i⟩, chunk⟩
    simp only [listed, List.mem_filter, decide_eq_true_eq, List.mem_map, Prod.mk.injEq,
      Prod.exists, List.mem_zipIdx_iff_getElem?, ← StdMap.find?_eq_some_iff]
    constructor
    · rintro ⟨hfind, rfl⟩
      exact ⟨chunk, i, (h i).symm.trans hfind, ⟨rfl, rfl⟩, rfl⟩
    · rintro ⟨chunk', i', hget, ⟨rfl, rfl⟩, rfl⟩
      exact ⟨(h i').trans hget, rfl⟩
  rw [chunksOf, hentries, List.map_map]
  exact List.zipIdx_map_fst 0 chunks

/-! ## Unfinished writes -/

/-- Some of the rows of a record are in the tables, and its row of `file_list` if `row` says so. -/
structure Partly (path : Bytes) (e : Encoded) (row : Bool) (db db' : Db) : Prop where
  file : ∀ path', db'.fileList.find? path' =
    if path' = path ∧ row = true then some e.row else db.fileList.find? path'
  contents : ∀ key, db'.fileContents.find? key = db.fileContents.find? key ∨
    (key.1 = path ∧ key.2 < e.chunks.length ∧ db'.fileContents.find? key = e.chunks[key.2]?)

/-- The first `k` chunks of a record are in the tables. -/
def Filled (path : Bytes) (e : Encoded) (k : ℕ) (db : Db) : Prop :=
  ∀ i < k, db.fileContents.find? (path, i) = e.chunks[i]?

section

variable {path : Bytes} {e : Encoded} {row : Bool} {db db' : Db}

theorem Partly.refl (path : Bytes) (e : Encoded) (db : Db) : Partly path e false db db :=
  ⟨fun _ => by simp, fun _ => Or.inl rfl⟩

theorem Partly.insertFile (h : Partly path e row db db') :
    Partly path e true db (db'.insertFile path e.row) := by
  refine ⟨fun path' => ?_, h.contents⟩
  rw [Db.insertFile, StdMap.find?_insert, h.file]
  by_cases hpath : path' = path
  · simp [hpath]
  · simp [hpath]

theorem Partly.insertChunk (h : Partly path e row db db') {i : ℕ} {chunk : Bytes}
    (hchunk : e.chunks[i]? = some chunk) : Partly path e row db (db'.insertChunk path i chunk) := by
  refine ⟨h.file, fun key => ?_⟩
  rw [Db.insertChunk, StdMap.find?_insert]
  split
  · next hkey =>
    obtain ⟨hi, -⟩ := List.getElem?_eq_some_iff.mp hchunk
    right
    rw [hkey]
    exact ⟨rfl, hi, hchunk.symm⟩
  · exact h.contents key

/-- The chunks come one after the other. -/
theorem Filled.insertChunk {k : ℕ} (h : Filled path e k db) {chunk : Bytes}
    (hchunk : e.chunks[k]? = some chunk) : Filled path e (k + 1) (db.insertChunk path k chunk) := by
  intro i hi
  rw [Db.insertChunk, StdMap.find?_insert]
  split
  · next hkey =>
    obtain rfl : i = k := congrArg Prod.snd hkey
    exact hchunk.symm
  · next hkey =>
    have hne : i ≠ k := fun heq => hkey (by rw [heq])
    exact h i (by omega)

/-- With all its chunks, a write is finished. -/
theorem Partly.eq_attempt (h : Partly path e row db db') (hfilled : Filled path e e.chunks.length db') :
    db' = db.attempt path e row := by
  refine ext_find? (fun path' => ?_) fun key => ?_
  · rw [h.file, find?_fileList_attempt]
  · rw [find?_fileContents_attempt]
    split
    · next hkey =>
      obtain ⟨hpath, hlt⟩ := hkey
      have hfind := hfilled key.2 hlt
      rwa [← hpath] at hfind
    · next hkey =>
      rcases h.contents key with hsame | ⟨hpath, hlt, -⟩
      · exact hsame
      · exact absurd ⟨hpath, hlt⟩ hkey

/-- A query for another path finds the same rows. -/
theorem Partly.rows (h : Partly path e row db db') {path' : Bytes} (hne : path' ≠ path) :
    db'.rows path' = db.rows path' := by
  have hfile : db'.fileList.find? path' = db.fileList.find? path' := by
    rw [h.file, if_neg fun hand => hne hand.1]
  have hcontents (i : ℕ) : db'.fileContents.find? (path', i) = db.fileContents.find? (path', i) :=
    (h.contents (path', i)).resolve_right fun hor => hne hor.1
  rw [Db.rows, Db.rows, hfile, chunksOf_congr hcontents]

end

end Db

end Libgetar.Sqlite
