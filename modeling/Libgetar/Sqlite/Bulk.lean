import Libgetar.Sqlite.Failure
import Libgetar.Catalogue.Read

/-!
# Bulk writes

Between `beginBulkWrites` and `endBulkWrites` a transaction is open, and writes that are not
immediate only insert their rows. An immediate write in between fails to begin a transaction of its
own, inserts its rows into the open one, and commits it, so that the writes behind it commit one by
one and the `COMMIT` of `endBulkWrites` fails. None of this is noticed.

When every statement does what it can, a write does the same to the tables whatever transaction it
meets (`Ready.writePtr`), and what was committed is behind only while a transaction is open
(`Ready.committed`). So an archive whose writes go through any number of `BulkWriter`s mirrors one
whose writes are all immediate (`Mirrors`): the reads are the same, and so is what is committed once
the last `BulkWriter` is destroyed (`bulk_writes_mirror_direct`).
-/

namespace Libgetar

open Lib Sqlite

namespace SqliteArchive

/-! ## Writes in any transaction -/

/-- The archive is between two calls, perhaps in a transaction, and the connection sees the tables
`db`. The parameters of the inserts can be bound. -/
structure Ready (a : SqliteArchive) (db : Db) : Prop where
  working : a.connection.working = db
  committed : a.connection.inTransaction = false → a.connection.committed = db
  filename : a.insertFilenameStmt.stepped = false
  contents : a.insertContentsStmt.stepped = false

/-- A write that began with `a₀` has made the tables `db` so far. No verdict is against its steps. -/
structure Ongoing (a₀ : SqliteArchive) (path : Bytes) (e : Encoded) (db : Db) (a : SqliteArchive) :
    Prop where
  mode : a.mode = a₀.mode
  fileNames : a.fileNames = a₀.fileNames
  select : a.selectContentsStmt = a₀.selectContentsStmt
  ok : AllOk a.connection.verdicts
  working : a.connection.working = db
  committed : a.connection.inTransaction = false → a.connection.committed = db
  filename : a.insertFilenameStmt.bindings = some (path, e.row)
  contents : a.insertContentsStmt.bindings.path = some path
  ready : a.insertContentsStmt.stepped = false

/-- A write that began with `a₀` has returned normally, with the tables `db`. -/
structure Stored (a₀ : SqliteArchive) (path : Bytes) (db : Db) (a : SqliteArchive) : Prop
    extends Ready a db where
  mode : a.mode = a₀.mode
  fileNames : a.fileNames = a₀.fileNames ++ [path]
  select : a.selectContentsStmt = a₀.selectContentsStmt

variable {a₀ a : SqliteArchive} {path : Bytes} {e : Encoded} {db : Db}

/-- Nothing is written yet. -/
theorem Ready.ongoing (h : Ready a db) (path : Bytes) (e : Encoded) {env : SqliteEnv}
    (hok : AllOk env.verdicts) : Ongoing a path e db ((a.meet env).bindRecord env.memory path e) where
  mode := rfl
  fileNames := rfl
  select := rfl
  ok := hok
  working := h.working
  committed := h.committed
  filename := by
    simp only [bindRecord, meet, Statement.bind, h.filename]
    rfl
  contents := by
    simp only [bindRecord, meet, Statement.bind, h.contents]
    rfl
  ready := by
    simp only [bindRecord, meet, Statement.bind, h.contents]

/-- `BEGIN` leaves a transaction open, whether it has begun it or has failed inside of one. -/
theorem stepBegin_of_ok (hok : AllOk a.connection.verdicts) : a.stepBegin.1 ≠ .busy ∧
    a.stepBegin.2 = { a with
      connection := { a.connection.rest with inTransaction := true }
      beginStmt := a.beginStmt.step } := by
  unfold SqliteArchive.stepBegin Connection.begin
  by_cases hin : a.connection.inTransaction = true
  · rw [if_pos hin, ← hin]
    exact ⟨Status.noConfusion, rfl⟩
  · rw [if_neg hin, Connection.perform_of_ok hok.verdict]
    exact ⟨Status.noConfusion, rfl⟩

/-- `COMMIT` leaves none open: it has committed, or has failed outside of one. -/
theorem stepEnd_of_ok (hok : AllOk a.connection.verdicts) : a.stepEnd.1 ≠ .busy ∧
    a.stepEnd.2 = { a with
      connection := { a.connection.rest with
        committed :=
          if a.connection.inTransaction then a.connection.working else a.connection.committed
        inTransaction := false }
      endStmt := a.endStmt.step } := by
  unfold SqliteArchive.stepEnd Connection.commit
  by_cases hin : a.connection.inTransaction = true
  · simp only [if_pos hin, Connection.perform_of_ok hok.verdict]
    exact ⟨Status.noConfusion, rfl⟩
  · have hout : a.connection.inTransaction = false := Bool.eq_false_of_not_eq_true hin
    simp only [if_neg hin]
    rw [← hout]
    exact ⟨Status.noConfusion, rfl⟩

/-- A transaction is begun. -/
theorem Ongoing.stepBegin (h : Ongoing a₀ path e db a) :
    Ongoing a₀ path e db a.stepBegin.2 ∧ a.stepBegin.2.connection.inTransaction = true := by
  rw [(stepBegin_of_ok h.ok).2]
  refine ⟨{ h with ok := h.ok.tail, committed := fun hout => ?_ }, rfl⟩
  cases hout

/-- A statement that changes the tables, in or out of a transaction. -/
theorem Ongoing.change (h : Ongoing a₀ path e db a) (f : Db → Db) :
    Ongoing a₀ path e (f db) { a with connection := (a.connection.rest.change f).2 } where
  mode := h.mode
  fileNames := h.fileNames
  select := h.select
  ok := h.ok.tail
  working := congrArg f h.working
  committed := by
    intro hout
    have hnot : a.connection.rest.inTransaction = false := hout
    simp only [Connection.change, hnot]
    exact congrArg f h.working
  filename := h.filename
  contents := h.contents
  ready := h.ready

/-- The row of `file_list` is inserted. -/
theorem Ongoing.stepInsertFilename (h : Ongoing a₀ path e db a) :
    a.stepInsertFilename.1 = .done ∧
      Ongoing a₀ path e (db.insertFile path e.row) a.stepInsertFilename.2 ∧
      a.stepInsertFilename.2.connection.inTransaction = a.connection.inTransaction := by
  unfold SqliteArchive.stepInsertFilename
  rw [h.filename, Connection.perform_of_ok h.ok.verdict]
  have hchange := h.change fun db => db.insertFile path e.row
  exact ⟨rfl, { hchange with filename := h.filename }, rfl⟩

/-- A chunk is inserted. -/
theorem Ongoing.stepInsertContents (h : Ongoing a₀ path e db a) (chunk : Bytes) (k : ℕ) :
    (a.bindChunk chunk k).stepInsertContents.1 = .done ∧
      Ongoing a₀ path e (db.insertChunk path k chunk)
        (a.bindChunk chunk k).stepInsertContents.2.resetInsertContents ∧
      (a.bindChunk chunk k).stepInsertContents.2.connection.inTransaction =
        a.connection.inTransaction := by
  have hbind : (a.bindChunk chunk k).insertContentsStmt.bindings =
      ⟨some path, some chunk, some k⟩ := by
    simp only [bindChunk, Statement.bind, h.ready, h.contents]
    rfl
  have hverdict : (a.bindChunk chunk k).connection.verdict = .ok := h.ok.verdict
  unfold SqliteArchive.stepInsertContents
  rw [hbind, Connection.perform_of_ok hverdict]
  have hchange := h.change fun db => db.insertChunk path k chunk
  exact ⟨rfl, { hchange with
    contents := congrArg ContentsBindings.path hbind
    ready := rfl }, rfl⟩

/-- `COMMIT` ends the transaction. -/
theorem Ongoing.stepEnd (h : Ongoing a₀ path e db a) (hin : a.connection.inTransaction = true) :
    a.stepEnd.1 = .done ∧ Ongoing a₀ path e db a.stepEnd.2 ∧
      a.stepEnd.2.connection.inTransaction = false := by
  unfold SqliteArchive.stepEnd Connection.commit
  rw [if_pos hin, Connection.perform_of_ok h.ok.verdict]
  exact ⟨rfl, { h with ok := h.ok.tail, committed := fun _ => h.working }, rfl⟩

/-! ## Loops -/

/-- The chunks of an immediate write. -/
theorem Ongoing.insertChunks (chunks : List Bytes) : ∀ {k : ℕ} {db : Db} {a : SqliteArchive},
    Ongoing a₀ path e db a →
      (insertChunks k chunks a).1 = true ∧
      Ongoing a₀ path e (Db.insertChunksFrom path k chunks db) (insertChunks k chunks a).2 ∧
      (insertChunks k chunks a).2.connection.inTransaction = a.connection.inTransaction := by
  induction chunks with
  | nil =>
    intro k db a h
    exact ⟨rfl, h, rfl⟩
  | cons chunk rest ih =>
    intro k db a h
    obtain ⟨hdone, hnext, hin⟩ := h.stepInsertContents chunk k
    have hloop : SqliteArchive.insertChunks k (chunk :: rest) a =
        SqliteArchive.insertChunks (k + 1) rest
          (a.bindChunk chunk k).stepInsertContents.2.resetInsertContents := by
      rw [SqliteArchive.insertChunks]
      exact if_neg (not_not.mpr hdone)
    obtain ⟨hall, hend, hin'⟩ := ih hnext (k := k + 1)
    rw [hloop]
    exact ⟨hall, hend, hin'.trans hin⟩

/-- The chunks of a bulk write. -/
theorem Ongoing.insertChunksBulk (chunks : List Bytes) : ∀ {k : ℕ} {db : Db} {a : SqliteArchive},
    Ongoing a₀ path e db a →
      (insertChunksBulk k chunks .done a).1 = .done ∧
      Ongoing a₀ path e (Db.insertChunksFrom path k chunks db) (insertChunksBulk k chunks .done a).2 ∧
      (insertChunksBulk k chunks .done a).2.connection.inTransaction = a.connection.inTransaction := by
  induction chunks with
  | nil =>
    intro k db a h
    exact ⟨rfl, h, rfl⟩
  | cons chunk rest ih =>
    intro k db a h
    obtain ⟨hdone, hnext, hin⟩ := h.stepInsertContents chunk k
    have hloop : SqliteArchive.insertChunksBulk k (chunk :: rest) .done a =
        SqliteArchive.insertChunksBulk (k + 1) rest .done
          (a.bindChunk chunk k).stepInsertContents.2.resetInsertContents := by
      rw [SqliteArchive.insertChunksBulk]
      simp only [fuel, repeatWhileBusy_of_done hdone, hdone]
    obtain ⟨hall, hend, hin'⟩ := ih hnext (k := k + 1)
    rw [hloop]
    exact ⟨hall, hend, hin'.trans hin⟩

/-- What is done behind the loops. -/
theorem Ongoing.finishWrite (h : Ongoing a₀ path e db a) (env : SqliteEnv) :
    (finishWrite path env .done a).2 = .done ∧ Stored a₀ path db (finishWrite path env .done a).1 := by
  refine ⟨rfl, ?_⟩
  exact {
    working := h.working
    committed := h.committed
    filename := rfl
    contents := rfl
    mode := h.mode
    fileNames := congrArg (· ++ [path]) h.fileNames
    select := h.select }

/-! ## Calls -/

/-- A write makes the same tables in and out of a transaction, immediate or not. An immediate one
leaves no transaction open, and another one leaves it as it is. -/
theorem Ready.writePtr (lz4 : Lz4) {w : Write} {env : SqliteEnv} (h : Ready a db)
    (hmode : a.mode ≠ .read) (hok : AllOk env.verdicts) :
    (a.writePtr lz4 w env).2 = .done ∧
      Stored a w.path (db.store w.path (encode lz4 w)) (a.writePtr lz4 w env).1 ∧
      (a.writePtr lz4 w env).1.connection.inTransaction =
        if w.immediate then false else a.connection.inTransaction := by
  have hongoing := h.ongoing w.path (encode lz4 w) hok
  have htransaction : ((a.meet env).bindRecord env.memory w.path (encode lz4 w)).connection.inTransaction =
      a.connection.inTransaction := rfl
  unfold SqliteArchive.writePtr
  rw [if_neg hmode]
  dsimp only
  generalize (a.meet env).bindRecord env.memory w.path (encode lz4 w) = b at hongoing htransaction ⊢
  by_cases hw : w.immediate = true
  · -- An immediate write: `BEGIN`, the rows, and `COMMIT`, each once.
    obtain ⟨hbegin, hin⟩ := hongoing.stepBegin
    obtain ⟨-, hfile, hin'⟩ := hbegin.stepInsertFilename
    obtain ⟨hall, hchunks, hin''⟩ := hfile.insertChunks (encode lz4 w).chunks (k := 0)
    obtain ⟨hdone, hend, hout⟩ := hchunks.stepEnd (hin''.trans (hin'.trans hin))
    have hloop : immediateLoop (encode lz4 w).chunks b.fuel b =
        (some .done, (inserts (encode lz4 w).chunks b).2.stepEnd.2) := by
      rw [fuel, immediateLoop_succ, inserts, hall, hdone, Bool.not_true]
      rfl
    obtain ⟨hanswer, hstored⟩ := hend.finishWrite env
    simp only [hw, if_true, hloop]
    exact ⟨hanswer, hstored, hout⟩
  · -- Any other write inserts its rows only.
    obtain ⟨hdone, hfile, hin⟩ := hongoing.stepInsertFilename
    obtain ⟨hall, hchunks, hin'⟩ := hfile.insertChunksBulk (encode lz4 w).chunks (k := 0)
    obtain ⟨hanswer, hstored⟩ := hchunks.finishWrite env
    simp only [hw, fuel, repeatWhileBusy_of_done hdone, hdone, hall]
    exact ⟨hanswer, hstored, hin'.trans (hin.trans htransaction)⟩

/-- A call that concerns the transaction only. -/
structure Kept (a₀ : SqliteArchive) (db : Db) (a : SqliteArchive) : Prop extends Ready a db where
  mode : a.mode = a₀.mode
  fileNames : a.fileNames = a₀.fileNames
  select : a.selectContentsStmt = a₀.selectContentsStmt

/-- `beginBulkWrites` changes nothing but the transaction. -/
theorem Ready.beginBulkWrites (h : Ready a db) {env : SqliteEnv} (hok : AllOk env.verdicts) :
    Kept a db (a.beginBulkWrites env) := by
  obtain ⟨hfree, hstep⟩ : (a.meet env).stepBegin.1 ≠ .busy ∧ _ := stepBegin_of_ok hok
  unfold SqliteArchive.beginBulkWrites
  simp only [fuel, repeatWhileBusy_of_ne_busy hfree, hstep]
  refine { h with mode := rfl, fileNames := rfl, select := rfl, committed := fun hout => ?_ }
  cases hout

/-- `endBulkWrites` leaves no transaction open, and changes nothing else. -/
theorem Ready.endBulkWrites (h : Ready a db) {env : SqliteEnv} (hok : AllOk env.verdicts) :
    Kept a db (a.endBulkWrites env) ∧ (a.endBulkWrites env).connection.inTransaction = false := by
  obtain ⟨hfree, hstep⟩ : (a.meet env).stepEnd.1 ≠ .busy ∧ _ := stepEnd_of_ok hok
  unfold SqliteArchive.endBulkWrites
  simp only [fuel, repeatWhileBusy_of_ne_busy hfree, hstep]
  refine ⟨{ h with mode := rfl, fileNames := rfl, select := rfl, committed := fun _ => ?_ }, trivial⟩
  -- What was committed before is all there is, unless a transaction was open.
  cases hin : (a.meet env).connection.inTransaction with
  | true => exact h.working
  | false => exact h.committed hin

/-! ## Mirrored archives -/

/-- The archives differ in what is committed at most, and in the first one a transaction may be
open. -/
structure Mirrors (a b : SqliteArchive) : Prop where
  mode : a.mode = b.mode
  writable : b.mode ≠ .read
  fileNames : a.fileNames = b.fileNames
  select : a.selectContentsStmt = b.selectContentsStmt
  ready : ∃ db, Ready a db ∧ Ready b db
  direct : b.connection.inTransaction = false

variable {b : SqliteArchive}

/-- A write, and an immediate one. -/
theorem Mirrors.writePtr (lz4 : Lz4) (h : Mirrors a b) (path contents : Bytes) (mode : CompressMode)
    (immediate : Bool) {env : SqliteEnv} (hok : AllOk env.verdicts) :
    (a.writePtr lz4 ⟨path, contents, mode, immediate⟩ env).2 = .done ∧
      (b.writePtr lz4 ⟨path, contents, mode, true⟩ env).2 = .done ∧
      Mirrors (a.writePtr lz4 ⟨path, contents, mode, immediate⟩ env).1
        (b.writePtr lz4 ⟨path, contents, mode, true⟩ env).1 ∧
      (a.writePtr lz4 ⟨path, contents, mode, immediate⟩ env).1.connection.inTransaction =
        if immediate then false else a.connection.inTransaction := by
  obtain ⟨db, ha, hb⟩ := h.ready
  have hmode : a.mode ≠ .read := by
    rw [h.mode]
    exact h.writable
  obtain ⟨hdone, hstored, hin⟩ :=
    ha.writePtr lz4 (w := ⟨path, contents, mode, immediate⟩) hmode hok
  obtain ⟨hdone', hstored', hin'⟩ :=
    hb.writePtr lz4 (w := ⟨path, contents, mode, true⟩) h.writable hok
  refine ⟨hdone, hdone', ?_, hin⟩
  exact {
    mode := by rw [hstored.mode, hstored'.mode, h.mode]
    writable := by
      rw [hstored'.mode]
      exact h.writable
    fileNames := by rw [hstored.fileNames, hstored'.fileNames, h.fileNames]
    select := by rw [hstored.select, hstored'.select, h.select]
    ready := ⟨_, hstored.toReady, hstored'.toReady⟩
    direct := hin' }

/-- A call that concerns the transaction of the first archive only. -/
theorem Mirrors.kept (h : Mirrors a b) {a' : SqliteArchive}
    (hkept : ∀ db, Ready a db → Kept a db a') : Mirrors a' b := by
  obtain ⟨db, ha, hb⟩ := h.ready
  have hkept := hkept db ha
  exact { h with
    mode := hkept.mode.trans h.mode
    fileNames := hkept.fileNames.trans h.fileNames
    select := hkept.select.trans h.select
    ready := ⟨db, hkept.toReady, hb⟩ }

/-- A read. -/
theorem Mirrors.read (lz4 : Lz4) (h : Mirrors a b) (path : Bytes) (env : SqliteEnv) :
    (a.read lz4 path env).2 = (b.read lz4 path env).2 ∧
      Mirrors (a.read lz4 path env).1 (b.read lz4 path env).1 ∧
      (a.read lz4 path env).1.connection.inTransaction = a.connection.inTransaction := by
  obtain ⟨db, ha, hb⟩ := h.ready
  have hrows : ∀ path', a.selected path env = some path' →
      a.connection.working.rows path' = b.connection.working.rows path' := by
    intro path' _
    rw [ha.working, hb.working]
  obtain ⟨hanswer, hselect, -⟩ := read_congr lz4 path env h.select hrows
  obtain ⟨_, _, heq⟩ := read_frame lz4 a path env
  obtain ⟨_, _, heq'⟩ := read_frame lz4 b path env
  refine ⟨hanswer, ?_, by rw [heq]⟩
  rw [heq, heq'] at hselect ⊢
  exact { h with select := hselect, ready := ⟨db, { ha with }, { hb with }⟩ }

end SqliteArchive

/-- The sqlite backend. -/
def sqliteBackend (lz4 : Lz4) : Backend SqliteArchive SqliteEnv where
  writePtr := SqliteArchive.writePtr lz4
  beginBulkWrites := SqliteArchive.beginBulkWrites
  endBulkWrites := SqliteArchive.endBulkWrites
  read := SqliteArchive.read lz4
  size := SqliteArchive.size
  getItemName a index := (a.getItemName index).getD []

/-! ## `BulkWriter` -/

/-- What the user of a file calls. A `BulkWriter` is an object with a number. -/
inductive WriterOp where
  /-- `BulkWriter::BulkWriter`. -/
  | construct (id : ℕ)
  /-- `BulkWriter::~BulkWriter`. -/
  | destroy (id : ℕ)
  /-- `BulkWriter::writeString`, `writeBytes`, `writePtr`. -/
  | bulkWrite (id : ℕ) (kind : WriteKind) (path contents : Bytes) (mode : CompressMode)
  /-- `GTAR::writeString`, `writeBytes`, `writePtr`. -/
  | write (kind : WriteKind) (path contents : Bytes) (mode : CompressMode)
  | readBytes (path : Bytes)

namespace Gtar

variable {σ ε : Type*}

/-- One call. -/
def writerStep (B : Backend σ ε) (g : Gtar σ) (c : WriterOp × ε) : Gtar σ × Answer :=
  match c with
  | (.construct _, env) => g.beginBulkWrites B env
  | (.destroy _, env) => g.endBulkWrites B env
  | (.bulkWrite _ kind path contents mode, env) => step B g (.write kind path contents mode false, env)
  | (.write kind path contents mode, env) => step B g (.write kind path contents mode true, env)
  | (.readBytes path, env) => g.readBytes B path env

/-- One call, when every write is a direct immediate one, and there is no `BulkWriter`. -/
def directStep (B : Backend σ ε) (g : Gtar σ) (c : WriterOp × ε) : Gtar σ × Answer :=
  match c with
  | (.construct _, _) => (g, .done)
  | (.destroy _, _) => (g, .done)
  | (.bulkWrite _ kind path contents mode, env) => step B g (.write kind path contents mode true, env)
  | (.write kind path contents mode, env) => step B g (.write kind path contents mode true, env)
  | (.readBytes path, env) => g.readBytes B path env

/-- The `BulkWriter`s that are alive after a call. -/
def alive (ids : List ℕ) : WriterOp → List ℕ
  | .construct id => id :: ids
  | .destroy id => ids.erase id
  | _ => ids

/-- The call can be made while these `BulkWriter`s are alive. -/
def Possible (ids : List ℕ) : WriterOp → Prop
  | .construct id => id ∉ ids
  | .destroy id => id ∈ ids
  | .bulkWrite id _ _ _ _ => id ∈ ids
  | _ => True

instance (ids : List ℕ) (op : WriterOp) : Decidable (Possible ids op) := by
  cases op <;> unfold Possible <;> infer_instance

/-- Every call is possible, and in the end all `BulkWriter`s are destroyed. -/
def Lifetimes : List ℕ → List WriterOp → Prop
  | ids, [] => ids = []
  | ids, op :: ops => Possible ids op ∧ Lifetimes (alive ids op) ops

instance : ∀ (ids : List ℕ) (ops : List WriterOp), Decidable (Lifetimes ids ops)
  | ids, [] => inferInstanceAs (Decidable (ids = []))
  | ids, op :: ops =>
    have := instDecidableLifetimes (alive ids op) ops
    inferInstanceAs (Decidable (Possible ids op ∧ Lifetimes (alive ids op) ops))

/-! ## Bulk writes are direct writes -/

open SqliteArchive (AllOk)

/-- The catalogues are the same, and the archives are mirrored. Outside all lifetimes no transaction is
open. -/
structure Mirrored (ids : List ℕ) (g g' : Gtar SqliteArchive) : Prop where
  records : g.records = g'.records
  indexedRecords : g.indexedRecords = g'.indexedRecords
  archives : ∃ a b, g.archive = some a ∧ g'.archive = some b ∧ a.Mirrors b ∧
    (ids = [] → a.connection.inTransaction = false)

variable {ids : List ℕ} {g g' : Gtar SqliteArchive}

/-- One write. -/
theorem Mirrored.write (lz4 : Lz4) (h : Mirrored ids g g') (kind : WriteKind) (path contents : Bytes)
    (mode : CompressMode) {immediate : Bool} (hids : immediate = false → ids ≠ [])
    {env : SqliteEnv} (hok : AllOk env.verdicts) :
    (step (sqliteBackend lz4) g (.write kind path contents mode immediate, env)).2 =
        (step (sqliteBackend lz4) g' (.write kind path contents mode true, env)).2 ∧
      Mirrored ids (step (sqliteBackend lz4) g (.write kind path contents mode immediate, env)).1
        (step (sqliteBackend lz4) g' (.write kind path contents mode true, env)).1 := by
  obtain ⟨a, b, ha, hb, hmirrors, -⟩ := h.archives
  obtain ⟨_, hstep⟩ := step_write (sqliteBackend lz4) g kind path contents mode immediate env
  obtain ⟨_, hstep'⟩ := step_write (sqliteBackend lz4) g' kind path contents mode true env
  obtain ⟨hdone, hdone', hnext, hin⟩ := hmirrors.writePtr lz4 path contents mode immediate hok
  rw [hstep, hstep']
  simp only [Gtar.write, ha, hb, sqliteBackend, hdone, hdone', if_true]
  refine ⟨trivial, ?_⟩
  exact {
    records := by simp only [insertRecord, h.records]
    indexedRecords := by simp only [insertRecord, h.indexedRecords]
    archives := by
      refine ⟨_, _, rfl, rfl, hnext, fun hnil => ?_⟩
      rw [hin]
      cases immediate with
      | true => rfl
      | false => exact absurd hnil (hids rfl) }

/-- One call. -/
theorem Mirrored.step (lz4 : Lz4) (h : Mirrored ids g g') {op : WriterOp} (hop : Possible ids op)
    {env : SqliteEnv} (hok : AllOk env.verdicts) :
    (writerStep (sqliteBackend lz4) g (op, env)).2 = (directStep (sqliteBackend lz4) g' (op, env)).2 ∧
      Mirrored (alive ids op) (writerStep (sqliteBackend lz4) g (op, env)).1
        (directStep (sqliteBackend lz4) g' (op, env)).1 := by
  obtain ⟨a, b, ha, hb, hmirrors, hids⟩ := h.archives
  cases op with
  | construct id =>
    -- The transaction of `beginBulkWrites` is open in the first archive only.
    simp only [writerStep, directStep, Gtar.beginBulkWrites, ha]
    refine ⟨trivial, h.records, h.indexedRecords, _, b, rfl, hb,
      hmirrors.kept fun db hready => hready.beginBulkWrites hok, fun hnil => ?_⟩
    cases hnil
  | destroy id =>
    simp only [writerStep, directStep, Gtar.endBulkWrites, ha]
    refine ⟨trivial, h.records, h.indexedRecords, _, b, rfl, hb,
      hmirrors.kept fun db hready => (hready.endBulkWrites hok).1, fun _ => ?_⟩
    obtain ⟨db, hready, -⟩ := hmirrors.ready
    exact (hready.endBulkWrites hok).2
  | bulkWrite id kind path contents mode =>
    -- Its `BulkWriter` is alive, so a transaction may stay open.
    exact h.write lz4 kind path contents mode (fun _ => List.ne_nil_of_mem hop) hok
  | write kind path contents mode =>
    exact h.write lz4 kind path contents mode (fun hfalse => Bool.noConfusion hfalse) hok
  | readBytes path =>
    obtain ⟨hanswer, hnext, hin⟩ := hmirrors.read lz4 path env
    simp only [writerStep, directStep, Gtar.readBytes, ha, hb]
    refine ⟨hanswer, h.records, h.indexedRecords, _, _, rfl, rfl, hnext, fun hnil => ?_⟩
    exact hin.trans (hids hnil)

/-- A run. -/
theorem Mirrored.run (lz4 : Lz4) {calls : List (WriterOp × SqliteEnv)} :
    ∀ {ids : List ℕ} {g g' : Gtar SqliteArchive}, Mirrored ids g g' →
      Lifetimes ids (calls.map Prod.fst) → (∀ c ∈ calls, AllOk c.2.verdicts) →
      Mirrored [] (exec (writerStep (sqliteBackend lz4)) g calls)
          (exec (directStep (sqliteBackend lz4)) g' calls) ∧
        outputs (writerStep (sqliteBackend lz4)) g calls =
          outputs (directStep (sqliteBackend lz4)) g' calls := by
  induction calls with
  | nil =>
    rintro ids g g' h rfl _
    exact ⟨h, rfl⟩
  | cons c calls ih =>
    rintro ids g g' h ⟨hop, hlater⟩ hok
    obtain ⟨hc, hok⟩ := List.forall_mem_cons.mp hok
    obtain ⟨hanswer, hnext⟩ := h.step lz4 hop hc
    obtain ⟨hend, hanswers⟩ := ih hnext hlater hok
    refine ⟨hend, ?_⟩
    rw [outputs_cons, outputs_cons, hanswer, hanswers]

/-- A file that has been opened for writing. -/
theorem mirrored_ofArchive (lz4 : Lz4) {mode : OpenMode} (hmode : mode ≠ .read) {disk : Option Db}
    {a : SqliteArchive} (h : SqliteArchive.ofFile mode disk = some a) :
    Mirrored [] (ofArchive (sqliteBackend lz4) a) (ofArchive (sqliteBackend lz4) a) := by
  obtain ⟨⟨db, hclean⟩, -⟩ := SqliteArchive.clean_ofFile h
  have hready : a.Ready db :=
    ⟨hclean.working, fun _ => hclean.committed, hclean.filename, hclean.contents⟩
  have hwritable : a.mode ≠ .read := by
    cases mode with
    | read => exact absurd rfl hmode
    | write => cases h; exact fun hread => by cases hread
    | append => cases disk <;> cases h <;> exact fun hread => by cases hread
  refine ⟨rfl, rfl, a, a, archive_ofArchive _ a, archive_ofArchive _ a, ?_, fun _ => hclean.inTransaction⟩
  exact ⟨rfl, hwritable, rfl, rfl, ⟨db, hready, hready⟩, hclean.inTransaction⟩

/-- After every run of writes and reads on a file that is open for writing, with any lifetimes of
`BulkWriter`s, which have all ended, and when no verdict is against a statement: every call has
answered as it does when all writes are direct immediate ones, and the tables that are committed, the
list of paths and the catalogue are the same. No transaction is open. -/
theorem bulk_writes_mirror_direct (lz4 : Lz4) {mode : OpenMode} (hmode : mode ≠ .read)
    {disk : Option Db} {a : SqliteArchive} (hopen : SqliteArchive.ofFile mode disk = some a)
    (calls : List (WriterOp × SqliteEnv)) (hlife : Lifetimes [] (calls.map Prod.fst))
    (hok : ∀ c ∈ calls, AllOk c.2.verdicts) :
    let g := exec (writerStep (sqliteBackend lz4)) (ofArchive (sqliteBackend lz4) a) calls
    let g' := exec (directStep (sqliteBackend lz4)) (ofArchive (sqliteBackend lz4) a) calls
    outputs (writerStep (sqliteBackend lz4)) (ofArchive (sqliteBackend lz4) a) calls =
        outputs (directStep (sqliteBackend lz4)) (ofArchive (sqliteBackend lz4) a) calls ∧
      g.records = g'.records ∧ g.indexedRecords = g'.indexedRecords ∧
      ∃ s s', g.archive = some s ∧ g'.archive = some s' ∧
        s.connection.committed = s'.connection.committed ∧ s.fileNames = s'.fileNames ∧
        s.connection.inTransaction = false := by
  intro g g'
  obtain ⟨hend, hanswers⟩ := (mirrored_ofArchive lz4 hmode hopen).run lz4 hlife hok
  obtain ⟨s, s', hs, hs', hmirrors, hout⟩ := hend.archives
  obtain ⟨db, hready, hready'⟩ := hmirrors.ready
  refine ⟨hanswers, hend.records, hend.indexedRecords, s, s', hs, hs', ?_, hmirrors.fileNames, hout rfl⟩
  rw [hready.committed (hout rfl), hready'.committed hmirrors.direct]

/-- A direct write and a read while a `BulkWriter` is alive, and another write through it. -/
theorem bulk_writes_mirror_direct_mixed :
    ∃ a, SqliteArchive.ofFile .write none = some a ∧
      let calls : List (WriterOp × SqliteEnv) :=
        [(.construct 0, {}), (.bulkWrite 0 .ptr (lit "a") [1] .noCompress, {}),
          (.write .ptr (lit "b") [2] .noCompress, {}), (.readBytes (lit "a"), {}),
          (.bulkWrite 0 .string (lit "a") [3] .noCompress, {}), (.destroy 0, {})]
      let g := exec (writerStep (sqliteBackend literalLz4)) (ofArchive (sqliteBackend literalLz4) a) calls
      let g' := exec (directStep (sqliteBackend literalLz4)) (ofArchive (sqliteBackend literalLz4) a) calls
      g.records = g'.records ∧ ∃ s s', g.archive = some s ∧ g'.archive = some s' ∧
        s.connection.committed = s'.connection.committed ∧ s.connection.inTransaction = false := by
  have hopen : SqliteArchive.ofFile .write none =
    some { mode := .write, fileNames := [], connection := ⟨.empty, .empty, false, []⟩ } := rfl
  refine ⟨_, hopen, ?_⟩
  intro calls
  have hok : ∀ c ∈ calls, AllOk c.2.verdicts := by
    unfold AllOk
    decide
  obtain ⟨-, hrecords, -, s, s', hs, hs', hcommitted, -, hout⟩ :=
    bulk_writes_mirror_direct literalLz4 (by decide) hopen calls (by decide) hok
  exact ⟨hrecords, s, s', hs, hs', hcommitted, hout⟩

end Gtar

end Libgetar
