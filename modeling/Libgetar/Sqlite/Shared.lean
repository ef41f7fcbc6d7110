import Libgetar.Lib.Locks
import Libgetar.Sqlite.Crash
import Libgetar.Sqlite.Statements

/-!
# A file that several programs write to

Any number of programs have the file open and take turns, one statement at a time. What a statement
meets is decided by the locks of SQLite (`unixLock`, `OP_Transaction` and `OP_AutoCommit` of
`sqlite3/sqlite3.c`): an insert needs a lock that one connection has at a time, and keeps it to the end
of its transaction; a `COMMIT` needs the file without readers, and it also fails while an insert of the
same connection has met a lock and was not repeated yet. No busy handler is set, so a statement that
meets a lock is over at once.
-/

namespace Libgetar

open Lib Sqlite SqliteArchive

/-! ## Programs -/

/-- A program that has the file open. -/
structure Process where
  archive : SqliteArchive
  /-- The call under way. -/
  task : Option Task := none
  /-- The calls to come, of which the first one may be under way. -/
  calls : List WriterOp
  /-- The calls that have returned, with their answers. -/
  returned : List (WriterOp × Answer) := []
  /-- The insert into `file_list` has met a lock, and was neither repeated nor reset. -/
  filenameActive : Bool := false
  /-- The insert into `file_contents` has. -/
  contentsActive : Bool := false

/-- One turn of a program. -/
structure Turn (ι : Type) where
  process : ι
  /-- The file is read by another program, which does not write. -/
  readers : Bool := false
  /-- The changes of the transaction do not fit into the cache any more. -/
  spills : Bool := false
  errmsg : Bytes := []
  fresh : ℕ → UInt8 := fun _ => 0
  memory : Memory := fun _ bytes => bytes

/-- The file and its programs. -/
structure SharedFile (ι : Type) where
  file : Db
  locks : Locks ι
  process : ι → Process

/-- What the next statement of a call needs. A `BEGIN` locks nothing. -/
def SqliteArchive.Task.asks : Task → Locks.Request
  | .beginBulkWrites | .writePtr _ .begin => .nothing
  | .writePtr _ .filename | .writePtr _ (.chunk _ _ _) => .write
  | .endBulkWrites | .writePtr _ .commit => .commit

namespace Process

/-- An insert is not over. -/
def active (p : Process) : Bool := p.filenameActive || p.contentsActive

/-- What the connection finds in the file, unless it has changed it. -/
def look (p : Process) (file : Db) (lock : Lock) : Process :=
  if lock.writes then p
  else { p with archive := { p.archive with
    connection := { p.archive.connection with committed := file, working := file } } }

/-- A statement was stepped, and has met a lock if it was not granted. -/
def after (p : Process) (t : Task) (granted : Bool) (a : SqliteArchive) : Process :=
  { p with
    archive := a
    filenameActive := a.insertFilenameStmt.stepped && match t with
      | .writePtr _ .filename => !granted
      | _ => p.filenameActive
    contentsActive := a.insertContentsStmt.stepped && match t with
      | .writePtr _ (.chunk _ _ _) => !granted
      | _ => p.contentsActive }

/-- A call is in front of a statement. -/
def goOn (p : Process) (t : Task) : Process := { p with task := some t }

/-- A call has returned. -/
def give (p : Process) (op : WriterOp) (answer : Answer) : Process :=
  { p with task := none, calls := p.calls.tail, returned := p.returned ++ [(op, answer)] }

/-- The program behind a statement. -/
def next (p : Process) (t : Task) (op : WriterOp) (granted : Bool) :
    SqliteArchive × Progress → Process
  | (a, .goesOn t') => (p.after t granted a).goOn t'
  | (a, .returns answer) => (p.after t granted a).give op answer

end Process

namespace SharedFile

variable {ι : Type} [Fintype ι] [DecidableEq ι]

/-! ## Locks -/

/-- The next statement does not meet a lock. An insert outside a transaction commits, too. -/
def granted (s : SharedFile ι) (x : Turn ι) (p : Process) (t : Task) : Bool :=
  s.locks.grants x.process t.asks &&
    match t.asks with
    | .write => p.archive.connection.inTransaction || (s.locks.alone x.process && !x.readers)
    | .commit => !p.active && !((s.locks x.process).writes && x.readers)
    | _ => true

/-- The lock of the program behind the statement. One that a statement gets outside a transaction ends
with it. -/
def lockAfter (s : SharedFile ι) (x : Turn ι) (p : Process) (t : Task) : Lock :=
  let lock := s.locks x.process
  match t.asks, s.granted x p t with
  | .write, true => if p.archive.connection.inTransaction then lock.write x.spills else lock
  | .commit, true => .unlocked
  | .commit, false => if p.active then lock else lock.wait
  | _, _ => lock

/-- What a call meets at a turn. -/
def env (x : Turn ι) (granted : Bool) : SqliteEnv :=
  { verdicts := [if granted then .ok else .busy], errmsg := x.errmsg, fresh := x.fresh,
    memory := x.memory }

/-! ## Turns -/

/-- The next statement of a call. -/
def statement (lz4 : Lz4) (s : SharedFile ι) (x : Turn ι) (p : Process) (t : Task) (op : WriterOp) :
    SharedFile ι × Option Answer :=
  let granted := s.granted x p t
  let result := t.step lz4 (env x granted) (p.archive.meet (env x granted))
  let locks := Function.update s.locks x.process (s.lockAfter x p t)
  let process := Function.update s.process x.process (p.next t op granted result)
  (⟨result.1.connection.committed, locks, process⟩,
    match result.2 with
    | .goesOn _ => none
    | .returns answer => some answer)

/-- A write begins. -/
def startWrite (lz4 : Lz4) (s : SharedFile ι) (x : Turn ι) (p : Process) (op : WriterOp) (w : Write) :
    SharedFile ι × Option Answer :=
  if p.archive.mode = .read then
    let answer := .threw (lit "Can't write to an archive opened for reading")
    ({ s with process := Function.update s.process x.process (p.give op answer) }, some answer)
  else
    let bound := { p with archive := p.archive.bindRecord x.memory w.path (encode lz4 w) }
    let next := bound.goOn (.writePtr w (if w.immediate then .begin else .filename))
    ({ s with process := Function.update s.process x.process next }, none)

/-- A call begins. A read is over with that, since what it reads does not change while it does. -/
def call (lz4 : Lz4) (s : SharedFile ι) (x : Turn ι) (p : Process) (op : WriterOp) :
    SharedFile ι × Option Answer :=
  match op with
  | .construct _ =>
    ({ s with process := Function.update s.process x.process (p.goOn .beginBulkWrites) }, none)
  | .destroy _ =>
    ({ s with process := Function.update s.process x.process (p.goOn .endBulkWrites) }, none)
  | .bulkWrite _ _ path contents mode => s.startWrite lz4 x p op ⟨path, contents, mode, false⟩
  | .write _ path contents mode => s.startWrite lz4 x p op ⟨path, contents, mode, true⟩
  | .readBytes path =>
    let granted := s.locks.mayRead x.process
    let (a, answer) := p.archive.read lz4 path (env x granted)
    ({ s with
      locks := Function.update s.locks x.process
        (if granted && p.archive.connection.inTransaction then (s.locks x.process).read
          else s.locks x.process)
      process := Function.update s.process x.process ({ p with archive := a }.give op answer) },
      some answer)

/-- A program takes its turn. -/
def turn (lz4 : Lz4) (s : SharedFile ι) (x : Turn ι) : SharedFile ι × Option Answer :=
  let p := (s.process x.process).look s.file (s.locks x.process)
  match p.task, p.calls with
  | some t, op :: _ => s.statement lz4 x p t op
  | none, op :: _ => s.call lz4 x p op
  | _, [] => (s, none)

/-- The programs open the file to append. -/
def start (db : Db) (programs : ι → List WriterOp) : SharedFile ι where
  file := db
  locks := fun _ => .unlocked
  process i := {
    archive := { mode := .append, fileNames := db.fileList.keys, connection := ⟨db, db, false, []⟩ }
    calls := programs i }

end SharedFile

end Libgetar
