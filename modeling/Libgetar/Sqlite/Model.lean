import Libgetar.Sqlite.Chunk
import Libgetar.Sqlite.Connection

/-!
# The sqlite backend

`SqliteArchive` with its constructor, `writePtr`, `read`, `beginBulkWrites`, `endBulkWrites` and
`close`. The archive keeps prepared statements for as long as it is open, so what a call leaves in
them (bindings, and whether they were reset) is part of its state.

A loop that repeats a step while the file is locked has fuel: every repetition uses up a verdict,
so one more than there are verdicts is enough.
-/

namespace Libgetar

open Lib Sqlite

/-- What a call takes from its surroundings. -/
structure SqliteEnv where
  /-- What the steps of the call meet. -/
  verdicts : List Verdict := []
  /-- The message that SQLite has for an error. -/
  errmsg : Bytes := []
  /-- The characters that `new char[n]` holds before anything is stored there. -/
  fresh : ℕ → UInt8 := fun _ => 0
  /-- What is now where the parameters of earlier calls were. -/
  memory : Memory := fun _ bytes => bytes

/-- A sqlite file that is open. -/
@[ext]
structure SqliteArchive where
  mode : OpenMode
  /-- Cached list of paths in archive. -/
  fileNames : List Bytes
  connection : Connection
  beginStmt : Statement Unit := { bindings := () }
  endStmt : Statement Unit := { bindings := () }
  insertFilenameStmt : Statement FilenameBindings := { bindings := none }
  insertContentsStmt : Statement ContentsBindings := { bindings := {} }
  selectContentsStmt : Statement (Option Bytes) := { bindings := none }

namespace SqliteArchive

/-! ## Opening and closing -/

/-- The constructor, on a file with the tables `disk` if it exists. The list of paths is read from
the index of the primary key. -/
def ofFile (mode : OpenMode) (disk : Option Db) : Option SqliteArchive :=
  match mode, disk with
  | .write, _ => some { mode := .write, fileNames := [], connection := ⟨.empty, .empty, false, []⟩ }
  | .append, none =>
    some { mode := .append, fileNames := [], connection := ⟨.empty, .empty, false, []⟩ }
  | .read, none => none
  | mode, some db =>
    some { mode := mode, fileNames := db.fileList.keys, connection := ⟨db, db, false, []⟩ }

/-- `close`: the tables that are left in the file. An open transaction is rolled back. -/
def close (a : SqliteArchive) : Db := a.connection.committed

/-! ## Steps -/

/-- `sqlite3_step(m_begin_stmt)`. -/
def stepBegin (a : SqliteArchive) : Status × SqliteArchive :=
  let (status, connection) := a.connection.begin
  (status, { a with connection := connection, beginStmt := a.beginStmt.step })

/-- `sqlite3_step(m_end_stmt)`. -/
def stepEnd (a : SqliteArchive) : Status × SqliteArchive :=
  let (status, connection) := a.connection.commit
  (status, { a with connection := connection, endStmt := a.endStmt.step })

/-- `sqlite3_step(m_insert_filename_stmt)`. -/
def stepInsertFilename (a : SqliteArchive) : Status × SqliteArchive :=
  let (status, connection) :=
    a.connection.perform (Connection.insertFile a.insertFilenameStmt.bindings)
  (status, { a with connection := connection, insertFilenameStmt := a.insertFilenameStmt.step })

/-- `sqlite3_step(m_insert_contents_stmt)`. -/
def stepInsertContents (a : SqliteArchive) : Status × SqliteArchive :=
  let (status, connection) :=
    a.connection.perform (Connection.insertContents a.insertContentsStmt.bindings)
  (status, { a with connection := connection, insertContentsStmt := a.insertContentsStmt.step })

/-- `do {status = sqlite3_step(stmt);} while(status == SQLITE_BUSY);` -/
def repeatWhileBusy (step : SqliteArchive → Status × SqliteArchive) :
    ℕ → SqliteArchive → Status × SqliteArchive
  | 0, a => (.busy, a)
  | fuel + 1, a =>
    let (status, a) := step a
    if status = .busy then repeatWhileBusy step fuel a else (status, a)

/-- Enough fuel for a loop that ends when the file is not locked. -/
def fuel (a : SqliteArchive) : ℕ := a.connection.verdicts.length + 1

/-! ## Writing -/

/-- The bindings that do not change over the chunks. -/
def bindRecord (memory : Memory) (path : Bytes) (e : Encoded) (a : SqliteArchive) : SqliteArchive :=
  { a with
    insertFilenameStmt := a.insertFilenameStmt.bind (FilenameBindings.now memory) fun _ =>
      some (path, ⟨e.uncompressedSize, e.compressedSize, e.compressLevel⟩)
    insertContentsStmt := a.insertContentsStmt.bind (ContentsBindings.now memory) fun b =>
      { b with path := some path } }

/-- The bindings of a chunk. What the statement keeps does not change during a call. -/
def bindChunk (chunk : Bytes) (chunkidx : ℕ) (a : SqliteArchive) : SqliteArchive :=
  { a with
    insertContentsStmt := a.insertContentsStmt.bind id fun b =>
      { b with contents := some chunk, chunkidx := some chunkidx } }

/-- `sqlite3_reset(m_insert_contents_stmt)`. -/
def resetInsertContents (a : SqliteArchive) : SqliteArchive :=
  { a with insertContentsStmt := a.insertContentsStmt.reset }

/-- The loop over the chunks of an immediate write, from `chunkidx` on. `false` stands for the throw
at a chunk that is not inserted. -/
def insertChunks : ℕ → List Bytes → SqliteArchive → Bool × SqliteArchive
  | _, [], a => (true, a)
  | chunkidx, chunk :: rest, a =>
    let (status, a) := (a.bindChunk chunk chunkidx).stepInsertContents
    if status ≠ .done then (false, a) else insertChunks (chunkidx + 1) rest a.resetInsertContents

/-- The loop of an immediate write: everything is repeated when the file is locked at the end.
`none` stands for the throw at a chunk. -/
def immediateLoop (chunks : List Bytes) : ℕ → SqliteArchive → Option Status × SqliteArchive
  | 0, a => (some .busy, a)
  | fuel + 1, a =>
    let (_, a) := a.stepBegin
    let (_, a) := a.stepInsertFilename
    let (inserted, a) := insertChunks 0 chunks a
    if !inserted then (none, a)
    else
      let (status, a) := a.stepEnd
      if status = .busy then immediateLoop chunks fuel a else (some status, a)

/-- The loop over the chunks of a bulk write, from `chunkidx` on, with the last status. -/
def insertChunksBulk : ℕ → List Bytes → Status → SqliteArchive → Status × SqliteArchive
  | _, [], status, a => (status, a)
  | chunkidx, chunk :: rest, _, a =>
    let a := a.bindChunk chunk chunkidx
    let (status, a) := repeatWhileBusy stepInsertContents a.fuel a
    insertChunksBulk (chunkidx + 1) rest status a.resetInsertContents

/-- The statements behind the loops. -/
def resetStatements (a : SqliteArchive) : SqliteArchive :=
  { a with
    insertFilenameStmt := (a.insertFilenameStmt.clear none).reset
    insertContentsStmt := (a.insertContentsStmt.clear {}).reset
    beginStmt := a.beginStmt.reset
    endStmt := a.endStmt.reset }

/-- What `writePtr` does behind the loops. -/
def finishWrite (path : Bytes) (env : SqliteEnv) (status : Status) (a : SqliteArchive) :
    SqliteArchive × Answer :=
  let a := a.resetStatements
  if status ≠ .done then
    (a, .threw (lit "Error inserting record at " ++ path ++ lit ": " ++ env.errmsg))
  else ({ a with fileNames := a.fileNames ++ [path] }, .done)

/-- The verdicts of a call. -/
def meet (a : SqliteArchive) (env : SqliteEnv) : SqliteArchive :=
  { a with connection := { a.connection with verdicts := env.verdicts } }

/-- `writePtr`. -/
def writePtr (lz4 : Lz4) (a : SqliteArchive) (w : Write) (env : SqliteEnv) : SqliteArchive × Answer :=
  if a.mode = .read then (a, .threw (lit "Can't write to an archive opened for reading"))
  else
    let e := encode lz4 w
    let a := (a.meet env).bindRecord env.memory w.path e
    if w.immediate then
      match immediateLoop e.chunks a.fuel a with
      | (none, a) =>
        (a, .threw (lit "Couldn't insert chunk in sqlite database: " ++ env.errmsg))
      | (some status, a) => finishWrite w.path env status a
    else
      let (status, a) := repeatWhileBusy stepInsertFilename a.fuel a
      let (status, a) := insertChunksBulk 0 e.chunks status a
      finishWrite w.path env status a

/-- `beginBulkWrites`. -/
def beginBulkWrites (a : SqliteArchive) (env : SqliteEnv) : SqliteArchive :=
  let a := a.meet env
  let (_, a) := repeatWhileBusy stepBegin a.fuel a
  { a with beginStmt := a.beginStmt.reset }

/-- `endBulkWrites`. -/
def endBulkWrites (a : SqliteArchive) (env : SqliteEnv) : SqliteArchive :=
  let a := a.meet env
  let (_, a) := repeatWhileBusy stepEnd a.fuel a
  { a with endStmt := a.endStmt.reset }

/-! ## Reading -/

/-- The rows that the select statement finds with its current binding. -/
def selectedRows (a : SqliteArchive) : List (FileRow × Bytes) :=
  match a.selectContentsStmt.bindings with
  | none => []
  | some path => a.connection.working.rows path

/-- `read`, with arrays of at most `heap` bytes. A throw while the chunks are put together leaves the
statement without a reset. -/
def readWithin (lz4 : Lz4) (heap : ℕ) (a : SqliteArchive) (path : Bytes) (env : SqliteEnv) :
    SqliteArchive × Answer :=
  let a := a.meet env
  let a := { a with
    selectContentsStmt := a.selectContentsStmt.bind (Option.map (env.memory .selected)) fun _ =>
      some path }
  let rows := a.selectedRows
  let stepped := { a with
    connection := a.connection.rest
    selectContentsStmt := a.selectContentsStmt.step }
  let reset (a : SqliteArchive) := { a with selectContentsStmt := a.selectContentsStmt.reset }
  if a.connection.verdict ≠ .ok then
    (reset stepped, .threw (lit "Error finding record at " ++ path ++ lit ": " ++ env.errmsg))
  else
    match rows with
    | [] => (reset stepped, .array none)
    | first :: rest =>
      let (got, connection) := stepped.connection.fetch rest
      let fetched := { stepped with connection := connection }
      let chunks := (first :: got).map Prod.snd
      match assemble lz4 heap env.fresh path first.1.uncompressedSize first.1.compressLevel chunks with
      | .threw message => (fetched, .threw message)
      | answer => (reset fetched, answer)

/-- `read`, when there is memory for every array. -/
def read (lz4 : Lz4) (a : SqliteArchive) (path : Bytes) (env : SqliteEnv) : SqliteArchive × Answer :=
  a.readWithin lz4 arrayBound path env

/-- One call. -/
def step (lz4 : Lz4) (a : SqliteArchive) (c : Call × SqliteEnv) : SqliteArchive × Answer :=
  match c with
  | (.writePtr w, env) => a.writePtr lz4 w env
  | (.read path, env) => a.read lz4 path env

/-- `size`. -/
def size (a : SqliteArchive) : ℕ := a.fileNames.length % 2 ^ 32

/-- `getItemName`. -/
def getItemName (a : SqliteArchive) (index : ℕ) : Option Bytes := a.fileNames[index]?

end SqliteArchive

end Libgetar
