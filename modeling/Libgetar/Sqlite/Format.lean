import Libgetar.Catalogue.Sessions
import Libgetar.Sqlite.ReadBack

/-!
# Sessions on a sqlite file

A sqlite file persists (`sqliteFormat_persists`), as long as no contents are empty and no record is
stored in fewer chunks than one before it under the same path, so that no chunk is left behind. Its
tables say what it holds: the rows of `file_list` are the paths, and what is read under each of them
is what was written there last (`Db.Holds`). What is not committed is lost when the file is closed,
so an archive is settled outside a transaction only.
-/

namespace Libgetar

open Lib Sqlite

/-- The file, if there is more than a name. -/
def OnDisk.file? {φ : Type*} : OnDisk φ → Option φ
  | .file f => some f
  | _ => none

/-- The sqlite format, where `errmsg` is what SQLite says of a file that is not opened. An empty file
is a database, in which there is no table to read. -/
def sqliteFormat (lz4 : Lz4) (filename errmsg : Bytes) : FileFormat SqliteArchive SqliteEnv Db where
  backend := sqliteBackend lz4
  ofFile mode disk :=
    match SqliteArchive.ofFile mode disk.file?, disk with
    | some a, _ => some (.ok a)
    | none, .empty => some (.error (lit "Couldn't compile select_contents statement: " ++ errmsg))
    | none, _ =>
      some (.error (lit "Can't open sqlite database " ++ filename ++ lit ": " ++ errmsg))
  close a _ := .file a.close

namespace Sqlite

/-! ## Tables that hold a log -/

/-- The log can be kept in the tables. -/
structure Fits (log : Store) : Prop where
  count : log.length < 2 ^ 32
  sized : ∀ e ∈ log, 0 < e.2.length ∧ e.2.length ≤ lengthBound
  /-- A record is not stored in fewer chunks than another one before it. -/
  grows : log.Pairwise fun e e' => e.1 = e'.1 → chunkCount e.2.length ≤ chunkCount e'.2.length

/-- The tables hold the log: the rows of `file_list` are its paths, the chunks of a path are those of
the last write to it, and they are read back as what was written. -/
structure Db.Holds (lz4 : Lz4) (db : Db) (log : Store) : Prop where
  listed : ∀ path, path ∈ db.fileList.keys ↔ path ∈ log.map Prod.fst
  chunks : ∀ path, ∃ chunks : List Bytes, (∀ i, db.fileContents.find? (path, i) = chunks[i]?) ∧
    chunks.length = (lastWrite log path).elim 0 fun contents => chunkCount contents.length
  read : ∀ fresh path, db.read lz4 fresh path = .array (lastWrite log path)

variable {lz4 : Lz4} {db : Db} {log : Store} {w : Write}

theorem Fits.of_append {log' : Store} (h : Fits (log ++ log')) : Fits log where
  count := by
    have hcount := h.count
    rw [List.length_append] at hcount
    omega
  sized e he := h.sized e (List.mem_append_left _ he)
  grows := (List.pairwise_append.mp h.grows).1

/-- Contents of one chunk each can be kept. -/
theorem fits_of_one_chunk (hcount : log.length < 2 ^ 32)
    (hsized : ∀ e ∈ log, 0 < e.2.length ∧ e.2.length ≤ chunkSize) : Fits log := by
  have hone : ∀ e ∈ log, chunkCount e.2.length = 1 := by
    intro e he
    obtain ⟨hpos, hle⟩ := hsized e he
    rw [chunkCount, pieceCount_of_pos chunkSize_pos hpos, Nat.sub_eq_zero_of_le hle,
      pieceCount_zero chunkSize_pos]
  refine ⟨hcount, fun e he => ⟨(hsized e he).1, (hsized e he).2.trans (by decide)⟩, ?_⟩
  refine List.pairwise_iff_forall_sublist.mpr fun {e e'} hsub _ => ?_
  rw [hone e (hsub.subset (by simp)), hone e' (hsub.subset (by simp))]

/-- A new write has at least as many chunks as the last one to its path. -/
theorem Fits.chunkCount_le (h : Fits (log ++ [(w.path, w.contents)])) :
    ((lastWrite log w.path).elim 0 fun contents => chunkCount contents.length) ≤
      chunkCount w.contents.length := by
  cases hlast : lastWrite log w.path with
  | none => exact Nat.zero_le _
  | some contents =>
    obtain ⟨-, -, hgrows⟩ := List.pairwise_append.mp h.grows
    have hle := hgrows (w.path, contents) (mem_of_lastWrite_eq_some hlast) (w.path, w.contents)
      (List.mem_singleton_self _) rfl
    rw [Option.elim_some]
    exact hle

/-- Empty tables hold nothing. -/
theorem holds_empty (lz4 : Lz4) : Db.empty.Holds lz4 [] where
  listed _ := Iff.rfl
  chunks _ := ⟨[], fun _ => rfl, rfl⟩
  read _ _ := rfl

/-- The chunks of a record, alone under its path, are read back. -/
theorem Db.read_of_chunks (hlz4 : lz4.Inverts) (hpos : 0 < w.contents.length)
    (hlen : w.contents.length ≤ lengthBound)
    (hrow : db.fileList.find? w.path = some (encode lz4 w).row)
    (hchunks : db.chunksOf w.path = (encode lz4 w).chunks) (fresh : ℕ → UInt8) :
    db.read lz4 fresh w.path = .array (some w.contents) := by
  have hcount := length_encode lz4 hlen
  have hsome : 0 < chunkCount w.contents.length := pieceCount_pos chunkSize_pos hpos
  have hassemble := (assemble_append_iff hlz4 fresh w.path hlen []).mpr (by simp)
  rw [List.append_nil] at hassemble
  unfold Db.read Db.rows
  rw [hrow, hchunks]
  cases hcases : (encode lz4 w).chunks with
  | nil =>
    rw [hcases, List.length_nil] at hcount
    omega
  | cons chunk rest =>
    have hsnd : ((encode lz4 w).row, chunk).2 ::
        (rest.map fun chunk => ((encode lz4 w).row, chunk)).map Prod.snd = chunk :: rest := by simp
    rw [hcases] at hassemble
    simp only [List.map_cons]
    rw [hsnd]
    exact hassemble

/-- A record is stored in no fewer chunks than the last one under its path. -/
theorem Db.Holds.store_of_le (hlz4 : lz4.Inverts) (h : db.Holds lz4 log) (hpos : 0 < w.contents.length)
    (hlen : w.contents.length ≤ lengthBound)
    (hle : ((lastWrite log w.path).elim 0 fun contents => chunkCount contents.length) ≤
      chunkCount w.contents.length) :
    (db.store w.path (encode lz4 w)).Holds lz4 (log ++ [(w.path, w.contents)]) := by
  have hcount := length_encode lz4 hlen
  have hnew (i : ℕ) : (db.store w.path (encode lz4 w)).fileContents.find? (w.path, i) =
      (encode lz4 w).chunks[i]? := by
    rw [find?_fileContents_store]
    by_cases hi : i < (encode lz4 w).chunks.length
    · exact if_pos ⟨rfl, hi⟩
    · -- No chunk was left behind.
      obtain ⟨chunks, hchunks, hlength⟩ := h.chunks w.path
      rw [if_neg fun hand => hi hand.2, hchunks, List.getElem?_eq_none (by omega),
        List.getElem?_eq_none (by omega)]
  have hold {path : Bytes} (hpath : path ≠ w.path) (i : ℕ) :
      (db.store w.path (encode lz4 w)).fileContents.find? (path, i) =
        db.fileContents.find? (path, i) := by
    rw [find?_fileContents_store]
    exact if_neg fun hand => hpath hand.1
  refine ⟨fun path => ?_, fun path => ?_, fun fresh path => ?_⟩
  · have hlisted := h.listed path
    rw [StdMap.mem_keys_iff] at hlisted ⊢
    simp only [find?_fileList_store, List.map_append, List.map_singleton, List.mem_append,
      List.mem_singleton, ← hlisted]
    by_cases hpath : path = w.path
    · simp [hpath]
    · simp [hpath]
  · rw [lastWrite_concat]
    by_cases hpath : path = w.path
    · rw [hpath]
      exact ⟨_, hnew, by rw [if_pos rfl, Option.elim_some, hcount]⟩
    · obtain ⟨chunks, hchunks, hlength⟩ := h.chunks path
      exact ⟨chunks, fun i => (hold hpath i).trans (hchunks i), by rw [if_neg hpath]; exact hlength⟩
  · rw [lastWrite_concat]
    by_cases hpath : path = w.path
    · rw [hpath, if_pos rfl]
      refine Db.read_of_chunks hlz4 hpos hlen ?_ (chunksOf_eq hnew) fresh
      rw [find?_fileList_store]
      exact if_pos rfl
    · have hrows : (db.store w.path (encode lz4 w)).rows path = db.rows path := by
        unfold Db.rows
        rw [find?_fileList_store, if_neg hpath, chunksOf_congr (hold hpath)]
      rw [if_neg hpath, ← h.read fresh path]
      unfold Db.read
      rw [hrows]

/-- A record is stored. -/
theorem Db.Holds.store (hlz4 : lz4.Inverts) (h : db.Holds lz4 log)
    (hfits : Fits (log ++ [(w.path, w.contents)])) :
    (db.store w.path (encode lz4 w)).Holds lz4 (log ++ [(w.path, w.contents)]) := by
  obtain ⟨hpos, hlen⟩ :=
    hfits.sized _ (List.mem_append_right _ (List.mem_singleton_self (w.path, w.contents)))
  exact h.store_of_le hlz4 hpos hlen hfits.chunkCount_le

end Sqlite

namespace SqliteArchive

/-! ## An open archive -/

/-- The archive was opened in the mode, is between two calls, and its tables hold the log. -/
structure OpenOn (lz4 : Lz4) (mode : OpenMode) (a : SqliteArchive) (log : Store) : Prop where
  mode : a.mode = mode
  select : a.selectContentsStmt.stepped = false
  ready : ∃ db, Ready a db ∧ db.Holds lz4 log

/-- No transaction is open. -/
def Settled (a : SqliteArchive) : Prop := a.connection.inTransaction = false

variable {lz4 : Lz4} {mode : OpenMode} {a : SqliteArchive} {log : Store} {env : SqliteEnv}

/-- A call that concerns the transaction only. -/
theorem OpenOn.kept (h : OpenOn lz4 mode a log) {a' : SqliteArchive}
    (hkept : ∀ db, Ready a db → Kept a db a') : OpenOn lz4 mode a' log := by
  obtain ⟨db, hready, hholds⟩ := h.ready
  have hnext := hkept db hready
  exact ⟨hnext.mode.trans h.mode, by rw [hnext.select]; exact h.select, db, hnext.toReady, hholds⟩

/-- A write. -/
theorem OpenOn.writePtr (hlz4 : lz4.Inverts) (h : OpenOn lz4 mode a log) (hmode : mode ≠ .read)
    {w : Write} (hfits : Fits (log ++ [(w.path, w.contents)])) (hok : AllOk env.verdicts) :
    (a.writePtr lz4 w env).2 = .done ∧
      OpenOn lz4 mode (a.writePtr lz4 w env).1 (log ++ [(w.path, w.contents)]) ∧
      (w.immediate = true → Settled (a.writePtr lz4 w env).1) := by
  obtain ⟨db, hready, hholds⟩ := h.ready
  obtain ⟨hdone, hstored, htransaction⟩ :=
    hready.writePtr lz4 (w := w) (by rw [h.mode]; exact hmode) hok
  refine ⟨hdone, ⟨hstored.mode.trans h.mode, ?_, _, hstored.toReady, hholds.store hlz4 hfits⟩,
    fun himmediate => ?_⟩
  · rw [hstored.select]
    exact h.select
  · rw [Settled, htransaction, if_pos himmediate]

/-- A read. -/
theorem OpenOn.read (h : OpenOn lz4 mode a log) (path : Bytes) (hok : AllOk env.verdicts) :
    (a.read lz4 path env).2 = .array (lastWrite log path) ∧
      OpenOn lz4 mode (a.read lz4 path env).1 log ∧
      (Settled a → Settled (a.read lz4 path env).1) := by
  obtain ⟨db, hready, hholds⟩ := h.ready
  have hanswer : (a.read lz4 path env).2 = .array (lastWrite log path) :=
    (read_ok lz4 path hready.working h.select hok).trans (hholds.read env.fresh path)
  have hreset : (a.read lz4 path env).1.selectContentsStmt.stepped = false := by
    refine read_stepped lz4 a path env fun message hthrew => ?_
    rw [hanswer] at hthrew
    cases hthrew
  obtain ⟨verdicts, stmt, heq⟩ := read_frame lz4 a path env
  rw [heq] at hreset ⊢
  exact ⟨hanswer, ⟨h.mode, hreset, db, { hready with }, hholds⟩, fun hsettled => hsettled⟩

/-! ## Opening -/

/-- A new file is open on nothing. -/
theorem exists_openOn_write (lz4 : Lz4) (disk : Option Db) :
    ∃ a, ofFile .write disk = some a ∧ OpenOn lz4 .write a [] ∧ Settled a ∧ a.fileNames = [] :=
  ⟨_, rfl, ⟨rfl, rfl, .empty, ⟨rfl, fun _ => rfl, rfl, rfl⟩, holds_empty lz4⟩, rfl, rfl⟩

/-- A file that holds a log is open on it, with the rows of `file_list` as its names. -/
theorem exists_openOn {db : Db} (h : db.Holds lz4 log) (hmode : mode ≠ .write) :
    ∃ a, ofFile mode (some db) = some a ∧ OpenOn lz4 mode a log ∧ Settled a ∧
      a.fileNames = db.fileList.keys := by
  cases mode with
  | write => exact absurd rfl hmode
  | append => exact ⟨_, rfl, ⟨rfl, rfl, db, ⟨rfl, fun _ => rfl, rfl, rfl⟩, h⟩, rfl, rfl⟩
  | read => exact ⟨_, rfl, ⟨rfl, rfl, db, ⟨rfl, fun _ => rfl, rfl, rfl⟩, h⟩, rfl, rfl⟩

/-- The items of a sqlite file are its names. -/
theorem names_sqliteBackend (lz4 : Lz4) (a : SqliteArchive) :
    Gtar.Names (sqliteBackend lz4) a a.fileNames where
  size := rfl
  getItemName i h := by
    show (a.fileNames[i]?).getD [] = _
    rw [List.getElem?_eq_getElem h, Option.getD_some, List.get_eq_getElem]

/-- There are not more rows of `file_list` than writes. -/
theorem length_keys_le {db : Db} (h : db.Holds lz4 log) : db.fileList.keys.length ≤ log.length := by
  have hnodup : db.fileList.keys.Nodup := by
    exact (StdMap.keys_sorted db.fileList).imp fun hlt => StrictTotal.ne hlt
  have hsub : db.fileList.keys ⊆ log.map Prod.fst := fun path hpath => (h.listed path).mp hpath
  have hle := (List.subperm_of_subset hnodup hsub).length_le
  rwa [List.length_map] at hle

end SqliteArchive

open SqliteArchive

/-- A sqlite file keeps what is written. -/
theorem sqliteFormat_persists {lz4 : Lz4} (hlz4 : lz4.Inverts) (filename errmsg : Bytes) :
    (sqliteFormat lz4 filename errmsg).Persists (fun env => AllOk env.verdicts) Fits
      (fun _ mode a log => OpenOn lz4 mode a log) Settled (fun db log => db.Holds lz4 log) where
  length_lt h := h.count
  fits_of_append h := h.of_append
  create disk := by
    obtain ⟨a, hfile, hopen, hsettled, hnames⟩ := exists_openOn_write lz4 disk.file?
    refine ⟨a, ?_, hopen, hsettled, ?_⟩
    · simp only [sqliteFormat, hfile]
    · rw [← hnames]
      exact names_sqliteBackend lz4 a
  reopen := by
    intro mode db log hmode hfits hholds
    obtain ⟨a, hfile, hopen, hsettled, hnames⟩ := exists_openOn hholds hmode
    refine ⟨a, db.fileList.keys, ?_, hopen, hsettled, ?_, ?_, hholds.listed⟩
    · simp only [sqliteFormat, OnDisk.file?, hfile]
    · rw [← hnames]
      exact names_sqliteBackend lz4 a
    · exact lt_of_le_of_lt (length_keys_le hholds) hfits.count
  writePtr hopen hmode hfits hok := hopen.writePtr hlz4 hmode hfits hok
  beginBulkWrites hopen hok := hopen.kept fun _ hready => hready.beginBulkWrites hok
  endBulkWrites {disk mode a log env} hopen hok := by
    refine ⟨hopen.kept fun _ hready => (hready.endBulkWrites hok).1, ?_⟩
    obtain ⟨db, hready, -⟩ := hopen.ready
    exact (hready.endBulkWrites hok).2
  read path hopen hok := hopen.read path hok
  close {disk mode a log} hopen hsettled := by
    obtain ⟨db, hready, hholds⟩ := hopen.ready
    refine ⟨_, rfl, ?_⟩
    rw [SqliteArchive.close, hready.committed hsettled]
    exact hholds

end Libgetar
