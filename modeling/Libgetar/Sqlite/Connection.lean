import Libgetar.Lib.StdMap

/-!
# What the archive uses of SQLite

The two tables and the rows that the archive's queries get from them (`Db`), a connection with at
most one open transaction (`Connection`), and prepared statements with their bindings (`Statement`).

A connection sees its own changes at once (`working`); what a file holds for anyone who opens it
later is `committed`. Outside a transaction every statement commits by itself. Whether a step does
its work, finds the file locked, or fails is decided by the verdicts of the environment, which the
steps consume one by one; when they are used up, steps do their work. A step that does not do its
work changes no row.
-/

namespace Libgetar.Sqlite

open Lib

/-! ## Tables -/

/-- A row of `file_list`, without its key. -/
structure FileRow where
  uncompressedSize : ℕ
  compressedSize : ℕ
  compressLevel : ℕ
deriving DecidableEq

/-- The tables: `file_list` is keyed by path, and `file_contents` by path and `chunk_idx`. -/
@[ext]
structure Db where
  fileList : StdMap Bytes FileRow bytesLt
  fileContents : StdMap (Bytes × ℕ) Bytes (lexLt bytesLt natLt)

namespace Db

/-- No table has a row. -/
def empty : Db := ⟨.empty, .empty⟩

/-- `INSERT INTO file_list`. -/
def insertFile (db : Db) (path : Bytes) (row : FileRow) : Db :=
  { db with fileList := db.fileList.insert path row }

/-- `INSERT INTO file_contents`. -/
def insertChunk (db : Db) (path : Bytes) (chunkidx : ℕ) (contents : Bytes) : Db :=
  { db with fileContents := db.fileContents.insert (path, chunkidx) contents }

/-- The chunks of a path, in the order of their indices. -/
def chunksOf (db : Db) (path : Bytes) : List Bytes :=
  (db.fileContents.entries.filter fun e => e.1.1 = path).map Prod.snd

/-- The rows of the join of the tables for a path, in the order of the indices. -/
def rows (db : Db) (path : Bytes) : List (FileRow × Bytes) :=
  match db.fileList.find? path with
  | none => []
  | some row => (db.chunksOf path).map fun chunk => (row, chunk)

end Db

/-! ## Connections -/

/-- What the next step meets. -/
inductive Verdict where
  | ok
  | busy
  | error
deriving DecidableEq

/-- What `sqlite3_step` returns. -/
inductive Status where
  | row
  | done
  | busy
  | error
deriving DecidableEq

/-- A database connection. -/
@[ext]
structure Connection where
  committed : Db
  working : Db
  inTransaction : Bool := false
  verdicts : List Verdict := []

namespace Connection

/-- The verdict of the next step. -/
def verdict (c : Connection) : Verdict := c.verdicts.headD .ok

/-- The connection with that verdict used up. -/
def rest (c : Connection) : Connection := { c with verdicts := c.verdicts.tail }

/-- A step of a statement that does `work` unless the verdict is against it. -/
def perform (c : Connection) (work : Connection → Status × Connection) : Status × Connection :=
  match c.verdict with
  | .ok => work c.rest
  | .busy => (.busy, c.rest)
  | .error => (.error, c.rest)

/-- `BEGIN TRANSACTION`: inside a transaction it fails, whatever the verdict. -/
def begin (c : Connection) : Status × Connection :=
  if c.inTransaction then (.error, c.rest)
  else c.perform fun c => (.done, { c with inTransaction := true })

/-- `COMMIT`: outside a transaction it fails, whatever the verdict. -/
def commit (c : Connection) : Status × Connection :=
  if c.inTransaction then
    c.perform fun c => (.done, { c with committed := c.working, inTransaction := false })
  else (.error, c.rest)

/-- A statement that changes the tables. -/
def change (f : Db → Db) (c : Connection) : Status × Connection :=
  (.done, { c with
    working := f c.working
    committed := if c.inTransaction then c.committed else f c.working })

end Connection

/-! ## Statements -/

/-- A prepared statement with its bindings. -/
structure Statement (β : Type) where
  bindings : β
  /-- The statement was stepped and not reset. -/
  stepped : Bool := false

namespace Statement

variable {β : Type}

/-- `sqlite3_bind_*`: it fails on a statement that was stepped and not reset. The bytes of a parameter
are not copied (the destructor is 0), so what such a statement keeps is where they were; `now` says
what is there now. -/
def bind (s : Statement β) (now f : β → β) : Statement β :=
  { s with bindings := if s.stepped then now s.bindings else f s.bindings }

/-- `sqlite3_clear_bindings`. -/
def clear (s : Statement β) (null : β) : Statement β := { s with bindings := null }

/-- `sqlite3_reset`. -/
def reset (s : Statement β) : Statement β := { s with stepped := false }

/-- The statement is stepped. A finished one starts again, with its current bindings. -/
def step (s : Statement β) : Statement β := { s with stepped := true }

end Statement

/-- The parameters whose bytes are not copied. -/
inductive Parameter where
  /-- The path of the inserts. -/
  | path
  | contents
  /-- The path of the select. -/
  | selected
deriving DecidableEq

/-- What is in the memory where the bytes of a parameter of an earlier call were. -/
abbrev Memory := Parameter → Bytes → Bytes

/-- The parameters of the insert into `file_list`, or NULL for all of them. -/
abbrev FilenameBindings := Option (Bytes × FileRow)

/-- The parameters of the insert into `file_contents`, where `none` is NULL. -/
structure ContentsBindings where
  path : Option Bytes := none
  contents : Option Bytes := none
  chunkidx : Option ℕ := none
deriving DecidableEq

/-- The kept parameters of the insert into `file_list`. -/
def FilenameBindings.now (memory : Memory) (bindings : FilenameBindings) : FilenameBindings :=
  bindings.map fun b => (memory .path b.1, b.2)

/-- The kept parameters of the insert into `file_contents`. -/
def ContentsBindings.now (memory : Memory) (bindings : ContentsBindings) : ContentsBindings :=
  { bindings with
    path := bindings.path.map (memory .path)
    contents := bindings.contents.map (memory .contents) }

namespace Connection

/-- The insert into `file_list`. Its columns are `NOT NULL`. -/
def insertFile (bindings : FilenameBindings) (c : Connection) : Status × Connection :=
  match bindings with
  | some (path, row) => c.change fun db => db.insertFile path row
  | none => (.error, c)

/-- The insert into `file_contents`. Only bound parameters are ever stepped with. -/
def insertContents (bindings : ContentsBindings) (c : Connection) : Status × Connection :=
  match bindings with
  | ⟨some path, some contents, some chunkidx⟩ =>
    c.change fun db => db.insertChunk path chunkidx contents
  | _ => (.error, c)

/-- The rows that are left of a query: the steps behind the first one return them until there is
none left, or a step fails. -/
def fetch {ρ : Type} : List ρ → Connection → List ρ × Connection
  | [], c => ([], c.rest)
  | r :: rows, c =>
    if c.verdict = .ok then (r :: (fetch rows c.rest).1, (fetch rows c.rest).2) else ([], c.rest)

end Connection

end Libgetar.Sqlite
