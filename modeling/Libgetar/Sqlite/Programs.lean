import Libgetar.Sqlite.Format
import Libgetar.Sqlite.Shared

/-!
# One of several programs

What a program that shares a file leaves in it, statement by statement (`Fine.statement`). The file
holds a log. A program that has the lock of the writer sees the file with its own writes that wait,
its `Journal.pending`; any other program has none that wait, and finds the file when it steps a
statement (`Fine`). So a statement leaves the file alone, or it is a `COMMIT` of the writer, and the
writes that waited are behind the log, in a block (`Moves`).

That holds as long as no write throws. A throw in `writePtr` leaves the inserts without a reset, so
the next write of the program binds nothing and is lost.
-/

namespace Libgetar

open Lib Sqlite SqliteArchive

/-! ## What the programs write -/

/-- The write that a call makes. -/
def WriterOp.write? : WriterOp → Option Write
  | .bulkWrite _ _ path contents mode => some ⟨path, contents, mode, false⟩
  | .write _ path contents mode => some ⟨path, contents, mode, true⟩
  | _ => none

/-- Contents that can be kept, and that have the same number of chunks under one path. -/
structure Alike (W : Set (Bytes × Bytes)) : Prop where
  sized : ∀ e ∈ W, 0 < e.2.length ∧ e.2.length ≤ lengthBound
  chunks : ∀ e ∈ W, ∀ e' ∈ W, e.1 = e'.1 → chunkCount e.2.length = chunkCount e'.2.length

theorem WriterOp.written?_of_write? {op : WriterOp} {w : Write} (h : op.write? = some w) :
    op.written? = some (w.path, w.contents) := by
  cases op <;> cases h <;> rfl

/-- Such a record is stored behind others. -/
theorem Alike.store {lz4 : Lz4} (hlz4 : lz4.Inverts) {W : Set (Bytes × Bytes)} (hW : Alike W)
    {db : Db} {log : Store} (h : db.Holds lz4 log) (hlog : ∀ e ∈ log, e ∈ W) {w : Write}
    (hw : (w.path, w.contents) ∈ W) :
    (db.store w.path (encode lz4 w)).Holds lz4 (log ++ [(w.path, w.contents)]) := by
  obtain ⟨hpos, hlen⟩ := hW.sized _ hw
  -- A record that had more chunks would leave the last of them behind.
  refine h.store_of_le hlz4 hpos hlen ?_
  cases hlast : lastWrite log w.path with
  | none => exact Nat.zero_le _
  | some contents =>
    have hsame := hW.chunks (w.path, contents) (hlog _ (mem_of_lastWrite_eq_some hlast)) _ hw rfl
    rw [Option.elim_some]
    exact le_of_eq hsame

/-- It has chunks. -/
theorem Alike.exists_chunk (lz4 : Lz4) {W : Set (Bytes × Bytes)} (hW : Alike W) {w : Write}
    (hw : (w.path, w.contents) ∈ W) : ∃ chunk rest, (encode lz4 w).chunks = chunk :: rest := by
  obtain ⟨hpos, hlen⟩ := hW.sized _ hw
  have hcount := length_encode lz4 hlen
  have hsome : 0 < chunkCount w.contents.length := pieceCount_pos chunkSize_pos hpos
  rw [← hcount] at hsome
  exact List.exists_cons_of_length_pos hsome

/-! ## Single statements -/

namespace SqliteArchive

variable {a : SqliteArchive} {granted : Bool}

/-- `BEGIN` meets no lock. -/
theorem stepBegin_granted (hverdicts : a.connection.verdicts = [.ok]) : a.stepBegin.1 ≠ .busy ∧
    a.stepBegin.2 = { a with
      connection := ⟨a.connection.committed, a.connection.working, true, []⟩
      beginStmt := a.beginStmt.step } := by
  have hok : AllOk a.connection.verdicts := by
    rw [hverdicts]
    exact fun v hv => List.mem_singleton.mp hv
  obtain ⟨hfree, hstep⟩ := stepBegin_of_ok hok
  refine ⟨hfree, hstep.trans ?_⟩
  rw [Connection.rest, hverdicts]
  rfl

/-- An insert into `file_list`, in a transaction. -/
theorem stepInsertFilename_granted
    (hverdicts : a.connection.verdicts = [if granted then .ok else .busy])
    (hin : a.connection.inTransaction = true) {path : Bytes} {row : FileRow}
    (hbindings : a.insertFilenameStmt.bindings = some (path, row)) :
    a.stepInsertFilename = (if granted then .done else .busy, { a with
      connection := ⟨a.connection.committed,
        if granted then a.connection.working.insertFile path row else a.connection.working, true, []⟩
      insertFilenameStmt := a.insertFilenameStmt.step }) := by
  unfold stepInsertFilename Connection.perform Connection.verdict Connection.rest
  rw [hverdicts, hbindings]
  cases granted with
  | true => simp [Connection.insertFile, Connection.change, hin]
  | false => simp [hin]

/-- An insert of a chunk, in a transaction. -/
theorem stepInsertContents_granted
    (hverdicts : a.connection.verdicts = [if granted then .ok else .busy])
    (hin : a.connection.inTransaction = true) {path : Bytes}
    (hpath : a.insertContentsStmt.bindings.path = some path)
    (hready : a.insertContentsStmt.stepped = false)
    (chunk : Bytes) (k : ℕ) :
    (a.bindChunk chunk k).stepInsertContents = (if granted then .done else .busy, { a with
      connection := ⟨a.connection.committed,
        if granted then a.connection.working.insertChunk path k chunk else a.connection.working,
        true, []⟩
      insertContentsStmt := ⟨⟨some path, some chunk, some k⟩, true⟩ }) := by
  unfold stepInsertContents bindChunk Statement.bind Connection.perform Connection.verdict
    Connection.rest
  cases granted with
  | true => simp [hverdicts, hready, hpath, Connection.insertContents, Connection.change, hin,
      Statement.step]
  | false => simp [hverdicts, hready, hpath, hin, Statement.step]

/-- `COMMIT`, in a transaction. -/
theorem stepEnd_granted (hverdicts : a.connection.verdicts = [if granted then .ok else .busy])
    (hin : a.connection.inTransaction = true) :
    a.stepEnd = (if granted then .done else .busy, { a with
      connection := ⟨if granted then a.connection.working else a.connection.committed,
        a.connection.working, !granted, []⟩
      endStmt := a.endStmt.step }) := by
  unfold stepEnd Connection.commit Connection.perform Connection.verdict Connection.rest
  cases granted with
  | true => simp [hverdicts, hin]
  | false => simp [hverdicts, hin]

/-- `COMMIT`, outside a transaction. -/
theorem stepEnd_outside {v : Verdict} (hverdicts : a.connection.verdicts = [v])
    (hin : a.connection.inTransaction = false) :
    a.stepEnd = (.error, { a with
      connection := ⟨a.connection.committed, a.connection.working, false, []⟩
      endStmt := a.endStmt.step }) := by
  unfold stepEnd Connection.commit Connection.rest
  simp [hverdicts, hin]

end SqliteArchive

/-! ## Where a program stands -/

/-- What waits was waiting or is written now. -/
theorem Journal.mem_pending_step {j : Journal} {op : WriterOp} {e : Bytes × Bytes}
    (he : e ∈ (j.step op).pending) : e ∈ j.pending ∨ e ∈ op.written? := by
  cases op with
  | construct id => exact Or.inl he
  | destroy id => exact absurd he List.not_mem_nil
  | bulkWrite id kind path contents mode =>
    rw [Journal.step] at he
    split at he
    · rcases List.mem_append.mp he with hold | hnew
      · exact Or.inl hold
      · exact Or.inr (Option.mem_some_iff.mpr (List.mem_singleton.mp hnew).symm)
    · exact Or.inl he
  | write kind path contents mode => exact absurd he List.not_mem_nil
  | readBytes path => exact Or.inl he

/-- A bulk write in a transaction waits for its end. -/
theorem WriterOp.step_of_bulk {op : WriterOp} {w : Write} (h : op.write? = some w)
    (hw : w.immediate = false) {j : Journal} (hatomic : Gtar.Atomic j op) :
    j.opened = true ∧ j.step op = { j with pending := j.pending ++ [(w.path, w.contents)] } := by
  cases op with
  | bulkWrite id kind path contents mode =>
    cases h
    exact ⟨hatomic, if_pos hatomic⟩
  | write kind path contents mode =>
    cases h
    cases hw
  | construct id => cases h
  | destroy id => cases h
  | readBytes path => cases h

/-- An immediate write ends the transaction. -/
theorem WriterOp.step_of_immediate {op : WriterOp} {w : Write} (h : op.write? = some w)
    (hw : w.immediate = true) (j : Journal) :
    j.step op = ⟨j.durable ++ j.pending ++ [(w.path, w.contents)], [], false⟩ := by
  cases op with
  | bulkWrite id kind path contents mode =>
    cases h
    cases hw
  | write kind path contents mode =>
    cases h
    rfl
  | construct id => cases h
  | destroy id => cases h
  | readBytes path => cases h

namespace Process

/-- The writes of a program that have returned. -/
def journal (p : Process) : Journal := Journal.after [] (p.returned.map Prod.fst)

/-- No write has failed. -/
def Served (p : Process) : Prop := ∀ x ∈ p.returned, x.1.written? ≠ none → x.2 = .done

/-- No write is under way. -/
structure Rests (lz4 : Lz4) (log : Store) (lock : Lock) (p : Process) : Prop where
  filename : p.archive.insertFilenameStmt.stepped = false
  contents : p.archive.insertContentsStmt.stepped = false
  filenameActive : p.filenameActive = false
  contentsActive : p.contentsActive = false
  transaction : p.archive.connection.inTransaction = p.journal.opened
  tables : lock.writes = true → p.archive.connection.working.Holds lz4 (log ++ p.journal.pending)

/-- A write is under way, with the first `k` of its chunks in the tables. When its row of `file_list`
was stepped, `named`, the row is in the tables, unless the insert has met a lock. -/
structure Underway (lz4 : Lz4) (log : Store) (lock : Lock) (p : Process) (w : Write) (k : ℕ)
    (named : Bool) : Prop where
  filename : p.archive.insertFilenameStmt.bindings = some (w.path, (encode lz4 w).row)
  contents : p.archive.insertContentsStmt.bindings.path = some w.path
  stepped : named = true → p.archive.insertFilenameStmt.stepped = true
  ready : p.archive.insertContentsStmt.stepped = false
  contentsActive : p.contentsActive = false
  tables : lock.writes = true → ∃ db row, db.Holds lz4 (log ++ p.journal.pending) ∧
    Db.Partly w.path (encode lz4 w) row db p.archive.connection.working ∧
    Db.Filled w.path (encode lz4 w) k p.archive.connection.working ∧
    (named = true → p.filenameActive = false → row = true)
  writer : named = true → p.filenameActive = false → lock.writes = true
  bulk : named = true → w.immediate = false → p.filenameActive = false

/-- In front of a statement of a write. -/
def InFront (lz4 : Lz4) (log : Store) (lock : Lock) (p : Process) (w : Write) : Point → Prop
  | .begin => w.immediate = true ∧ Underway lz4 log lock p w 0 false
  | .filename => p.archive.connection.inTransaction = true ∧ Underway lz4 log lock p w 0 false
  | .chunk k chunk rest => p.archive.connection.inTransaction = true ∧
    (encode lz4 w).chunks.drop k = chunk :: rest ∧ Underway lz4 log lock p w k true ∧
    (lock.writes = false → k = 0)
  | .commit => w.immediate = true ∧ p.archive.connection.inTransaction = true ∧
    Underway lz4 log lock p w (encode lz4 w).chunks.length true ∧ lock.writes = true

/-- Where the call under way stands. -/
inductive Stands (lz4 : Lz4) (log : Store) (lock : Lock) (p : Process) : Prop where
  | idle : p.task = none → Rests lz4 log lock p → Stands lz4 log lock p
  | begins {id : ℕ} {calls : List WriterOp} : p.task = some .beginBulkWrites →
      p.calls = .construct id :: calls → Rests lz4 log lock p → Stands lz4 log lock p
  | ends {id : ℕ} {calls : List WriterOp} : p.task = some .endBulkWrites →
      p.calls = .destroy id :: calls → Rests lz4 log lock p → Stands lz4 log lock p
  | writes {op : WriterOp} {calls : List WriterOp} {w : Write} {point : Point} :
      p.task = some (.writePtr w point) → p.calls = op :: calls → op.write? = some w →
      InFront lz4 log lock p w point → Stands lz4 log lock p

/-- A program that shares a file with a log. Only a program that holds the lock of the writer has
writes that wait, and its tables are those of the file with these. -/
structure Fine (lz4 : Lz4) (W : Set (Bytes × Bytes)) (log : Store) (file : Db) (lock : Lock)
    (p : Process) : Prop where
  mode : p.archive.mode ≠ .read
  settled : p.journal.Settled
  atomic : ∀ before op after, p.calls = before ++ op :: after →
    Gtar.Atomic (before.foldl Journal.step p.journal) op
  allowed : ∀ op ∈ p.calls, ∀ e ∈ op.written?, e ∈ W
  pending : ∀ e ∈ p.journal.pending, e ∈ W
  committed : lock.writes = true → p.archive.connection.committed = file
  waits : lock.writes = false → p.journal.pending = []
  outside : p.archive.connection.inTransaction = false → lock.writes = false
  stands : Stands lz4 log lock p

/-- The program has looked at the file. -/
structure Looks (file : Db) (lock : Lock) (p : Process) : Prop where
  committed : p.archive.connection.committed = file
  working : lock.writes = false → p.archive.connection.working = file

/-- What a program does: it adds a block to the log, if it holds the lock of the writer. -/
structure Moves (lz4 : Lz4) (W : Set (Bytes × Bytes)) (log : Store) (file : Db) (lock : Lock)
    (p : Process) (file' : Db) (lock' : Lock) (p' : Process) (block : Store) : Prop where
  fine : Fine lz4 W (log ++ block) file' lock' p'
  holds : file'.Holds lz4 (log ++ block)
  durable : p'.journal.durable = p.journal.durable ++ block
  allowed : ∀ e ∈ block, e ∈ W
  quiet : lock.writes = false → block = [] ∧ file' = file

variable {lz4 : Lz4} {W : Set (Bytes × Bytes)} {log : Store} {file : Db} {lock lock' : Lock}
  {p p' : Process} {w : Write} {k : ℕ} {named : Bool} {op : WriterOp} {calls : List WriterOp}

theorem journal_give (p : Process) (op : WriterOp) (answer : Answer) :
    (p.give op answer).journal = p.journal.step op := by
  simp only [journal, give, Journal.after, List.map_append, List.map_singleton, List.foldl_append,
    List.foldl_cons, List.foldl_nil]

/-- Without the lock of the writer it does not matter what the others do. -/
theorem Stands.of_waits (h : Stands lz4 log lock p) (hlock : lock.writes = false) (log' : Store) :
    Stands lz4 log' lock p := by
  -- The log stands only in what is said of the tables of a writer.
  have hno {P : Prop} (hwrites : lock.writes = true) : P := by
    rw [hlock] at hwrites
    cases hwrites
  have hrests (h : Rests lz4 log lock p) : Rests lz4 log' lock p :=
    { h with tables := fun hw => hno hw }
  have hunderway {w : Write} {k : ℕ} {named : Bool} (h : Underway lz4 log lock p w k named) :
      Underway lz4 log' lock p w k named := { h with tables := fun hw => hno hw }
  cases h with
  | idle htask h => exact .idle htask (hrests h)
  | begins htask hcalls h => exact .begins htask hcalls (hrests h)
  | ends htask hcalls h => exact .ends htask hcalls (hrests h)
  | writes htask hcalls hop h =>
    refine .writes htask hcalls hop ?_
    cases ‹Point› with
    | begin => exact ⟨h.1, hunderway h.2⟩
    | filename => exact ⟨h.1, hunderway h.2⟩
    | chunk => exact ⟨h.1, h.2.1, hunderway h.2.2.1, h.2.2.2⟩
    | commit => exact ⟨h.1, h.2.1, hunderway h.2.2.1, h.2.2.2⟩

theorem Fine.of_waits (h : Fine lz4 W log file lock p) (hlock : lock.writes = false) (log' : Store)
    (file' : Db) : Fine lz4 W log' file' lock p :=
  { h with
    committed := fun hwrites => absurd hwrites (Bool.eq_false_iff.mp hlock)
    stands := h.stands.of_waits hlock log' }

/-- A program that looks at the file. -/
theorem Fine.look (h : Fine lz4 W log file lock p) :
    Fine lz4 W log file lock (p.look file lock) ∧ Looks file lock (p.look file lock) := by
  unfold Process.look
  cases hlock : lock.writes with
  | true =>
    rw [if_pos rfl]
    exact ⟨h, h.committed hlock, fun hno => by rw [hlock] at hno; cases hno⟩
  | false =>
    -- Nothing of the tables of the connection matters.
    rw [if_neg Bool.false_ne_true]
    have hno {P : Prop} (hwrites : lock.writes = true) : P := by
      rw [hlock] at hwrites
      cases hwrites
    refine ⟨{ h with committed := fun hw => hno hw, stands := ?_ }, rfl, fun _ => rfl⟩
    cases h.stands with
    | idle htask hr => exact .idle htask { hr with tables := fun hw => hno hw }
    | begins htask hcalls hr => exact .begins htask hcalls { hr with tables := fun hw => hno hw }
    | ends htask hcalls hr => exact .ends htask hcalls { hr with tables := fun hw => hno hw }
    | writes htask hcalls hop hr =>
      refine .writes htask hcalls hop ?_
      cases ‹Point› with
      | begin => exact ⟨hr.1, { hr.2 with tables := fun hw => hno hw }⟩
      | filename => exact ⟨hr.1, { hr.2 with tables := fun hw => hno hw }⟩
      | chunk => exact ⟨hr.1, hr.2.1, { hr.2.2.1 with tables := fun hw => hno hw }, hr.2.2.2⟩
      | commit => exact ⟨hr.1, hr.2.1, { hr.2.2.1 with tables := fun hw => hno hw }, hr.2.2.2⟩

/-! ## What a statement does -/

/-- What the locks are behind a statement. -/
structure LockStep (t : Task) (p : Process) (lock lock' : Lock) (granted : Bool) : Prop where
  nothing : t.asks = .nothing → granted = true ∧ lock' = lock
  write : t.asks = .write → p.archive.connection.inTransaction = true →
    (granted = true → lock'.writes = true) ∧ (granted = false → lock' = lock ∧ lock.writes = false)
  commit : t.asks = .commit → (granted = true → p.active = false ∧ lock'.writes = false) ∧
    (granted = false → lock'.writes = lock.writes)

variable {t t' : Task} {granted : Bool} {a : SqliteArchive} {answer : Answer}

/-- A call goes on. -/
theorem Fine.goesOn (h : Fine lz4 W log file lock p) (hmode : a.mode = p.archive.mode)
    (hcommitted : a.connection.committed = file) (hlock : lock'.writes = false → lock.writes = false)
    (houtside : a.connection.inTransaction = false → lock'.writes = false)
    (hstands : Stands lz4 log lock' ((p.after t granted a).goOn t')) :
    Fine lz4 W log file lock' ((p.after t granted a).goOn t') where
  mode := by
    show a.mode ≠ .read
    rw [hmode]
    exact h.mode
  settled := h.settled
  atomic := h.atomic
  allowed := h.allowed
  pending := h.pending
  committed := fun _ => hcommitted
  waits := fun hno => h.waits (hlock hno)
  outside := houtside
  stands := hstands

/-- A call returns. -/
theorem Fine.gives (h : Fine lz4 W log file lock p) (hcalls : p.calls = op :: calls) {q : Process}
    (hq : q.calls = p.calls ∧ q.returned = p.returned)
    (hmode : q.archive.mode = p.archive.mode) {file' : Db}
    (hcommitted : q.archive.connection.committed = file') {log' : Store}
    (hwaits : lock'.writes = false → (p.journal.step op).pending = [])
    (houtside : q.archive.connection.inTransaction = false → lock'.writes = false)
    (hrests : Rests lz4 log' lock' (q.give op answer)) :
    Fine lz4 W log' file' lock' (q.give op answer) := by
  have hjournal : (q.give op answer).journal = p.journal.step op := by
    rw [journal_give, journal, hq.2, ← journal]
  exact {
    mode := by
      show q.archive.mode ≠ .read
      rw [hmode]
      exact h.mode
    settled := by
      rw [hjournal]
      exact h.settled.step op
    atomic := by
      intro before op' after hop
      rw [hjournal]
      refine h.atomic (op :: before) op' after ?_
      rw [hcalls, List.cons_append, ← hop]
      show op :: calls = op :: q.calls.tail
      rw [hq.1, hcalls, List.tail_cons]
    allowed := fun op' hop => by
      have hmem : op' ∈ q.calls.tail := hop
      rw [hq.1] at hmem
      exact h.allowed op' (List.mem_of_mem_tail hmem)
    pending := by
      rw [hjournal]
      intro e he
      rcases Journal.mem_pending_step he with hold | hnew
      · exact h.pending e hold
      · exact h.allowed op (by rw [hcalls]; exact List.mem_cons_self) e hnew
    committed := fun _ => hcommitted
    waits := by
      rw [hjournal]
      exact hwaits
    outside := houtside
    stands := .idle rfl hrests }

/-- A step that leaves the file alone. -/
theorem Fine.moves (hfine : Fine lz4 W log file lock' p') (hholds : file.Holds lz4 log)
    (hdurable : p'.journal.durable = p.journal.durable) {file' : Db} (hfile : file' = file) :
    Moves lz4 W log file lock p file' lock' p' [] := by
  subst hfile
  exact ⟨by rwa [List.append_nil], by rwa [List.append_nil], by rwa [List.append_nil],
    fun e he => absurd he List.not_mem_nil, fun _ => ⟨rfl, rfl⟩⟩

/-- What comes of a statement of a call, unless it throws. -/
def Advances (lz4 : Lz4) (W : Set (Bytes × Bytes)) (log : Store) (file : Db) (lock : Lock) (p : Process)
    (t : Task) (op : WriterOp) (granted : Bool) (lock' : Lock) : SqliteArchive × Progress → Prop
  | (a, .goesOn t') => Moves lz4 W log file lock p a.connection.committed lock'
      ((p.after t granted a).goOn t') []
  | (a, .returns answer) => ((p.after t granted a).give op answer).Served →
      ∃ block, Moves lz4 W log file lock p a.connection.committed lock'
        ((p.after t granted a).give op answer) block

/-- The call goes on, and the file is left alone. -/
theorem Fine.advances (hfine : Fine lz4 W log file lock' ((p.after t granted a).goOn t'))
    (hholds : file.Holds lz4 log) (hcommitted : a.connection.committed = file) :
    Advances lz4 W log file lock p t op granted lock' (a, .goesOn t') :=
  Fine.moves (p := p) hfine hholds rfl hcommitted

/-- No write is under way behind a statement that concerns the transaction only. -/
theorem Rests.gives {log' : Store} (hrests : Rests lz4 log lock p)
    (hfilename : a.insertFilenameStmt = p.archive.insertFilenameStmt)
    (hcontents : a.insertContentsStmt = p.archive.insertContentsStmt)
    (htransaction : a.connection.inTransaction = (p.journal.step op).opened)
    (htables : lock'.writes = true →
      a.connection.working.Holds lz4 (log' ++ (p.journal.step op).pending)) :
    Rests lz4 log' lock' ((p.after t granted a).give op answer) where
  filename := by
    show a.insertFilenameStmt.stepped = false
    rw [hfilename]
    exact hrests.filename
  contents := by
    show a.insertContentsStmt.stepped = false
    rw [hcontents]
    exact hrests.contents
  filenameActive := by
    show (a.insertFilenameStmt.stepped && _) = false
    rw [hfilename, hrests.filename, Bool.false_and]
  contentsActive := by
    show (a.insertContentsStmt.stepped && _) = false
    rw [hcontents, hrests.contents, Bool.false_and]
  transaction := by
    rw [journal_give]
    exact htransaction
  tables := by
    rw [journal_give]
    exact htables

/-- `beginBulkWrites`. -/
theorem Fine.beginBulkWrites (h : Fine lz4 W log file lock p) (hlooks : Looks file lock p)
    (hholds : file.Holds lz4 log) {id : ℕ} (hcalls : p.calls = .construct id :: calls)
    (hrests : Rests lz4 log lock p) {env : SqliteEnv} (hok : env.verdicts = [.ok]) :
    Advances lz4 W log file lock p .beginBulkWrites (.construct id) granted lock
      (Task.step lz4 env (p.archive.meet env) .beginBulkWrites) := by
  obtain ⟨hfree, hstep⟩ := stepBegin_granted (a := p.archive.meet env) hok
  simp only [Task.step, if_neg hfree, hstep]
  refine fun _ => ⟨[], Fine.moves ?_ hholds ?_ hlooks.committed⟩
  · apply h.gives hcalls
    · exact ⟨rfl, rfl⟩
    · rfl
    · exact hlooks.committed
    · exact h.waits
    · exact fun hout => Bool.noConfusion hout
    · exact hrests.gives rfl rfl rfl hrests.tables
  · rw [journal_give]
    rfl

/-- `endBulkWrites`. -/
theorem Fine.endBulkWrites (h : Fine lz4 W log file lock p) (hlooks : Looks file lock p)
    (hholds : file.Holds lz4 log) {id : ℕ} (hcalls : p.calls = .destroy id :: calls)
    (hrests : Rests lz4 log lock p) {env : SqliteEnv}
    (hverdicts : env.verdicts = [if granted then .ok else .busy])
    (hlocks : LockStep .endBulkWrites p lock lock' granted) :
    Advances lz4 W log file lock p .endBulkWrites (.destroy id) granted lock'
      (Task.step lz4 env (p.archive.meet env) .endBulkWrites) := by
  obtain ⟨hgranted, hrefused⟩ := hlocks.commit rfl
  cases hin : p.archive.connection.inTransaction with
  | false =>
    -- There is nothing to commit.
    have hwaits : lock.writes = false := h.outside hin
    have hlock' : lock'.writes = false := by
      cases hg : granted with
      | true => exact (hgranted hg).2
      | false => rw [hrefused hg, hwaits]
    simp only [Task.step, stepEnd_outside (a := p.archive.meet env) hverdicts hin, reduceCtorEq,
      if_false]
    refine fun _ => ⟨[], Fine.moves ?_ hholds ?_ hlooks.committed⟩
    · apply h.gives hcalls
      · exact ⟨rfl, rfl⟩
      · rfl
      · exact hlooks.committed
      · exact fun _ => rfl
      · exact fun _ => hlock'
      · refine hrests.gives rfl rfl rfl fun hwrites => ?_
        rw [hlock'] at hwrites
        cases hwrites
    · rw [journal_give]
      show p.journal.durable ++ p.journal.pending = p.journal.durable
      rw [h.waits hwaits, List.append_nil]
  | true =>
    rw [Task.step, stepEnd_granted (a := p.archive.meet env) hverdicts hin]
    cases hg : granted with
    | false =>
      -- The file is locked, and the call is repeated.
      simp only [Bool.false_eq_true, if_false, if_true]
      have hlock' : lock'.writes = lock.writes := hrefused hg
      refine Fine.advances ?_ hholds hlooks.committed
      apply h.goesOn
      · rfl
      · exact hlooks.committed
      · exact fun hno => hlock' ▸ hno
      · exact fun hout => Bool.noConfusion hout
      · refine .ends rfl hcalls ⟨hrests.filename, hrests.contents, ?_, ?_, ?_, fun hwrites => ?_⟩
        · show (_ && _) = false
          rw [hrests.filenameActive, Bool.and_false]
        · show (_ && _) = false
          rw [hrests.contentsActive, Bool.and_false]
        · exact hin.symm.trans hrests.transaction
        · exact hrests.tables (hlock' ▸ hwrites)
    | true =>
      -- What waits is in the file.
      simp only [if_true, reduceCtorEq, if_false]
      have hlock' : lock'.writes = false := (hgranted hg).2
      refine fun _ => ⟨p.journal.pending, ?_, ?_, ?_, h.pending, fun hwaits => ⟨h.waits hwaits, ?_⟩⟩
      · apply h.gives hcalls
        · exact ⟨rfl, rfl⟩
        · rfl
        · rfl
        · exact fun _ => rfl
        · exact fun _ => hlock'
        · refine hrests.gives rfl rfl rfl fun hwrites => ?_
          rw [hlock'] at hwrites
          cases hwrites
      · cases hwriter : lock.writes with
        | true => exact hrests.tables hwriter
        | false =>
          show p.archive.connection.working.Holds lz4 (log ++ p.journal.pending)
          rw [hlooks.working hwriter, h.waits hwriter, List.append_nil]
          exact hholds
      · rw [journal_give]
        rfl
      · exact hlooks.working hwaits

/-! ## Writes -/

/-- The tables that a write starts from, if nobody else writes. -/
theorem Looks.holds (hlooks : Looks file lock p) (h : Fine lz4 W log file lock p)
    (hholds : file.Holds lz4 log) (hwaits : lock.writes = false) :
    p.archive.connection.working.Holds lz4 (log ++ p.journal.pending) := by
  rw [hlooks.working hwaits, h.waits hwaits, List.append_nil]
  exact hholds

/-- What is in the tables when a write is in front of a statement that it may step. -/
theorem Underway.partly (hunder : Underway lz4 log lock p w k named) (h : Fine lz4 W log file lock p)
    (hlooks : Looks file lock p) (hholds : file.Holds lz4 log) (hfirst : lock.writes = false → k = 0) :
    ∃ db row, db.Holds lz4 (log ++ p.journal.pending) ∧
      Db.Partly w.path (encode lz4 w) row db p.archive.connection.working ∧
      Db.Filled w.path (encode lz4 w) k p.archive.connection.working ∧
      (named = true → p.filenameActive = false → row = true) := by
  cases hwaits : lock.writes with
  | true => exact hunder.tables hwaits
  | false =>
    refine ⟨_, false, hlooks.holds h hholds hwaits, Db.Partly.refl _ _ _, ?_, fun hnamed hactive => ?_⟩
    · rw [hfirst hwaits]
      exact fun i hi => absurd hi (Nat.not_lt_zero i)
    · have hwriter := hunder.writer hnamed hactive
      rw [hwaits] at hwriter
      cases hwriter

/-- A write whose row of `file_list` is still to be stepped. -/
theorem Underway.of_unnamed
    (hfilename : p.archive.insertFilenameStmt.bindings = some (w.path, (encode lz4 w).row))
    (hcontents : p.archive.insertContentsStmt.bindings.path = some w.path)
    (hready : p.archive.insertContentsStmt.stepped = false) (hactive : p.contentsActive = false)
    (htables : lock.writes = true → ∃ db row, db.Holds lz4 (log ++ p.journal.pending) ∧
      Db.Partly w.path (encode lz4 w) row db p.archive.connection.working) :
    Underway lz4 log lock p w 0 false where
  filename := hfilename
  contents := hcontents
  stepped hnamed := Bool.noConfusion hnamed
  ready := hready
  contentsActive := hactive
  tables hwrites := by
    obtain ⟨db, row, hdb, hpartly⟩ := htables hwrites
    exact ⟨db, row, hdb, hpartly, fun i hi => absurd hi (Nat.not_lt_zero i),
      fun hnamed => Bool.noConfusion hnamed⟩
  writer hnamed := Bool.noConfusion hnamed
  bulk hnamed := Bool.noConfusion hnamed

/-- `BEGIN`, which starts a transaction or is in one. -/
theorem Fine.begin (h : Fine lz4 W log file lock p) (hlooks : Looks file lock p)
    (hholds : file.Holds lz4 log) (hcalls : p.calls = op :: calls) (hop : op.write? = some w)
    (hunder : Underway lz4 log lock p w 0 false) {env : SqliteEnv} (hok : env.verdicts = [.ok]) :
    Advances lz4 W log file lock p (.writePtr w .begin) op granted lock
      (Task.step lz4 env (p.archive.meet env) (.writePtr w .begin)) := by
  obtain ⟨-, hstep⟩ := stepBegin_granted (a := p.archive.meet env) hok
  simp only [Task.step, hstep]
  refine Fine.advances ?_ hholds hlooks.committed
  apply h.goesOn
  · rfl
  · exact hlooks.committed
  · exact id
  · exact fun hout => Bool.noConfusion hout
  · refine .writes rfl hcalls hop ⟨rfl, ?_⟩
    refine .of_unnamed hunder.filename hunder.contents hunder.ready ?_ fun hwrites => ?_
    · show (_ && _) = false
      rw [hunder.contentsActive, Bool.and_false]
    · obtain ⟨db, row, hdb, hpartly, -, -⟩ := hunder.tables hwrites
      exact ⟨db, row, hdb, hpartly⟩

/-- The row of `file_list`. -/
theorem Fine.filename (hW : Alike W) (h : Fine lz4 W log file lock p) (hlooks : Looks file lock p)
    (hholds : file.Holds lz4 log) (hcalls : p.calls = op :: calls) (hop : op.write? = some w)
    (hin : p.archive.connection.inTransaction = true)
    (hunder : Underway lz4 log lock p w 0 false) {env : SqliteEnv}
    (hverdicts : env.verdicts = [if granted then .ok else .busy])
    (hlocks : LockStep (.writePtr w .filename) p lock lock' granted) :
    Advances lz4 W log file lock p (.writePtr w .filename) op granted lock'
      (Task.step lz4 env (p.archive.meet env) (.writePtr w .filename)) := by
  obtain ⟨hgranted, hrefused⟩ := hlocks.write rfl hin
  -- There is a chunk, so the row is not the last statement of a bulk write.
  have hw : (w.path, w.contents) ∈ W :=
    h.allowed op (by rw [hcalls]; exact List.mem_cons_self) _ (WriterOp.written?_of_write? hop)
  obtain ⟨chunk, rest, hchunks⟩ := hW.exists_chunk lz4 hw
  rw [Task.step, stepInsertFilename_granted (a := p.archive.meet env) hverdicts hin hunder.filename]
  cases hg : granted with
  | true =>
    -- The program is the writer now, and its tables are those of the file with the row.
    have hlock' : lock'.writes = true := hgranted hg
    obtain ⟨db, row, hdb, hpartly, -, -⟩ := hunder.partly h hlooks hholds fun _ => rfl
    simp only [if_true, reduceCtorEq, and_false, if_false, hchunks, SqliteArchive.advance]
    refine Fine.advances ?_ hholds hlooks.committed
    apply h.goesOn
    · rfl
    · exact hlooks.committed
    · exact fun hno => absurd hlock' (Bool.eq_false_iff.mp hno)
    · exact fun hout => Bool.noConfusion hout
    · refine .writes rfl hcalls hop ⟨rfl, hchunks, ?_, fun hno => rfl⟩
      exact {
        filename := hunder.filename
        contents := hunder.contents
        stepped := fun _ => rfl
        ready := hunder.ready
        contentsActive := by
          show (_ && _) = false
          rw [hunder.contentsActive, Bool.and_false]
        tables := fun _ => ⟨db, true, hdb, hpartly.insertFile,
          fun i hi => absurd hi (Nat.not_lt_zero i), fun _ _ => rfl⟩
        writer := fun _ _ => hlock'
        bulk := fun _ _ => rfl }
  | false =>
    obtain ⟨rfl, hwaits⟩ := hrefused hg
    have hno {P : Prop} (hwrites : lock'.writes = true) : P := by
      rw [hwaits] at hwrites
      cases hwrites
    cases hw : w.immediate with
    | false =>
      -- A bulk write steps it again.
      simp only [Bool.false_eq_true, if_false, Bool.not_false, and_self, if_true]
      refine Fine.advances ?_ hholds hlooks.committed
      apply h.goesOn
      · rfl
      · exact hlooks.committed
      · exact id
      · exact fun hout => Bool.noConfusion hout
      · refine .writes rfl hcalls hop ⟨rfl, ?_⟩
        refine .of_unnamed hunder.filename hunder.contents hunder.ready ?_ fun hwrites => hno hwrites
        show (_ && _) = false
        rw [hunder.contentsActive, Bool.and_false]
    | true =>
      -- An immediate write goes on without it.
      simp only [Bool.false_eq_true, if_false, Bool.not_true, false_and, hchunks, SqliteArchive.advance]
      refine Fine.advances ?_ hholds hlooks.committed
      apply h.goesOn
      · rfl
      · exact hlooks.committed
      · exact id
      · exact fun hout => Bool.noConfusion hout
      · refine .writes rfl hcalls hop ⟨rfl, hchunks, ?_, fun _ => rfl⟩
        exact {
          filename := hunder.filename
          contents := hunder.contents
          stepped := fun _ => rfl
          ready := hunder.ready
          contentsActive := by
            show (_ && _) = false
            rw [hunder.contentsActive, Bool.and_false]
          tables := fun hwrites => hno hwrites
          writer := fun _ hactive => Bool.noConfusion hactive
          bulk := fun _ hbulk => by
            rw [hw] at hbulk
            cases hbulk }

/-- A write that is done leaves its statements as they were before it. -/
theorem rests_finish {log' : Store}
    (htransaction : a.connection.inTransaction = (p.journal.step op).opened)
    (htables : lock'.writes = true →
      a.connection.working.Holds lz4 (log' ++ (p.journal.step op).pending)) {path : Bytes} :
    Rests lz4 log' lock' ((p.after t granted
      { a.resetStatements with fileNames := a.resetStatements.fileNames ++ [path] }).give op answer) where
  filename := rfl
  contents := rfl
  filenameActive := rfl
  contentsActive := rfl
  transaction := by
    rw [journal_give]
    exact htransaction
  tables := by
    rw [journal_give]
    exact htables

theorem Fine.finishes (h : Fine lz4 W log file lock p) (hcalls : p.calls = op :: calls)
    (hmode : a.mode = p.archive.mode) {file' : Db} (hcommitted : a.connection.committed = file')
    {log' : Store} (hwaits : lock'.writes = false → (p.journal.step op).pending = [])
    (houtside : a.connection.inTransaction = false → lock'.writes = false)
    (htransaction : a.connection.inTransaction = (p.journal.step op).opened)
    (htables : lock'.writes = true →
      a.connection.working.Holds lz4 (log' ++ (p.journal.step op).pending)) {path : Bytes} :
    Fine lz4 W log' file' lock' ((p.after t granted
      { a.resetStatements with fileNames := a.resetStatements.fileNames ++ [path] }).give op answer) := by
  apply h.gives hcalls
  · exact ⟨rfl, rfl⟩
  · exact hmode
  · exact hcommitted
  · exact hwaits
  · exact houtside
  · exact rests_finish htransaction htables

/-- A throw in a write. -/
theorem not_served_threw (hcalls : op.write? = some w) (message : Bytes) :
    ¬((p.after t granted a).give op (.threw message)).Served := by
  intro hserved
  have hdone := hserved (op, .threw message) (List.mem_append_right _ (List.mem_singleton_self _))
  have hwritten := WriterOp.written?_of_write? hcalls
  have hthrew := hdone (by
    show op.written? ≠ none
    rw [hwritten]
    exact Option.some_ne_none _)
  cases hthrew

/-! ## The inserts of chunks -/

/-- What a granted insert of a chunk does to an archive, as far as it matters. -/
structure Inserted (a : SqliteArchive) (path : Bytes) (k : ℕ) (chunk : Bytes) (b : SqliteArchive) :
    Prop where
  mode : b.mode = a.mode
  connection : b.connection =
    ⟨a.connection.committed, a.connection.working.insertChunk path k chunk, true, []⟩
  filename : b.insertFilenameStmt = a.insertFilenameStmt
  contents : b.insertContentsStmt = ⟨⟨some path, some chunk, some k⟩, false⟩

section

variable {b : SqliteArchive} {chunk : Bytes} {rest : List Bytes}

/-- A chunk that is not granted. Only an immediate write may be here without the lock, and it throws. -/
theorem Underway.refused (hunder : Underway lz4 log lock p w k true) (hop : op.write? = some w)
    (hwaits : lock.writes = false) (message : Bytes) :
    w.immediate = true ∧ ¬((p.after t granted a).give op (.threw message)).Served := by
  refine ⟨?_, not_served_threw hop message⟩
  cases hw : w.immediate with
  | true => rfl
  | false =>
    have hwriter := hunder.writer rfl (hunder.bulk rfl hw)
    rw [hwaits] at hwriter
    cases hwriter

/-- The insert of the row has met a lock behind the chunk if it had in front of it. -/
theorem Inserted.filenameActive (hb : Inserted p.archive w.path k chunk b)
    (hunder : Underway lz4 log lock p w k true) :
    (b.insertFilenameStmt.stepped && p.filenameActive) = p.filenameActive := by
  rw [hb.filename, hunder.stepped rfl, Bool.true_and]

/-- The write has one more chunk in the tables. -/
theorem Inserted.underway (hb : Inserted p.archive w.path k chunk b)
    (h : Fine lz4 W log file lock p) (hlooks : Looks file lock p) (hholds : file.Holds lz4 log)
    (hunder : Underway lz4 log lock p w k true) (hfirst : lock.writes = false → k = 0)
    (hget : (encode lz4 w).chunks[k]? = some chunk) (hlock' : lock'.writes = true) :
    Underway lz4 log lock' ((p.after (.writePtr w (.chunk k chunk rest)) true b).goOn t') w (k + 1)
      true where
  filename := by
    show b.insertFilenameStmt.bindings = _
    rw [hb.filename]
    exact hunder.filename
  contents := by
    show b.insertContentsStmt.bindings.path = _
    rw [hb.contents]
  stepped := fun _ => by
    show b.insertFilenameStmt.stepped = true
    rw [hb.filename]
    exact hunder.stepped rfl
  ready := by
    show b.insertContentsStmt.stepped = false
    rw [hb.contents]
  contentsActive := by
    show (b.insertContentsStmt.stepped && _) = false
    rw [hb.contents, Bool.false_and]
  tables := fun _ => by
    obtain ⟨db, row, hdb, hpartly, hfilled, hrow⟩ := hunder.partly h hlooks hholds hfirst
    refine ⟨db, row, hdb, ?_, ?_, fun _ hno => hrow rfl ((hb.filenameActive hunder).symm.trans hno)⟩
    · show Db.Partly w.path (encode lz4 w) row db b.connection.working
      rw [hb.connection]
      exact hpartly.insertChunk hget
    · show Db.Filled w.path (encode lz4 w) (k + 1) b.connection.working
      rw [hb.connection]
      exact hfilled.insertChunk hget
  writer := fun _ _ => hlock'
  bulk := fun _ hbulk => (hb.filenameActive hunder).trans (hunder.bulk rfl hbulk)

/-- The write goes on. -/
theorem Inserted.advances (hb : Inserted p.archive w.path k chunk b)
    (h : Fine lz4 W log file lock p) (hlooks : Looks file lock p) (hholds : file.Holds lz4 log)
    (hlock' : lock'.writes = true) (hstands : Stands lz4 log lock' ((p.after t true b).goOn t')) :
    Advances lz4 W log file lock p t op true lock' (b, .goesOn t') := by
  have hcommitted : b.connection.committed = file := by
    rw [hb.connection]
    exact hlooks.committed
  refine Fine.advances (h.goesOn hb.mode hcommitted ?_ ?_ hstands) hholds hcommitted
  · exact fun hno => absurd hlock' (Bool.eq_false_iff.mp hno)
  · intro hout
    rw [hb.connection] at hout
    cases hout

/-- A bulk write is done with its last chunk. The record waits for the end of the transaction. -/
theorem Inserted.bulk (hlz4 : lz4.Inverts) (hW : Alike W) (hb : Inserted p.archive w.path k chunk b)
    (h : Fine lz4 W log file lock p) (hlooks : Looks file lock p) (hholds : file.Holds lz4 log)
    (hlog : ∀ e ∈ log, e ∈ W) (hcalls : p.calls = op :: calls) (hop : op.write? = some w)
    (hw : w.immediate = false) (hunder : Underway lz4 log lock p w k true)
    (hfirst : lock.writes = false → k = 0) (hget : (encode lz4 w).chunks[k]? = some chunk)
    (hlength : (encode lz4 w).chunks.length = k + 1) (hlock' : lock'.writes = true) :
    Advances lz4 W log file lock p t op true lock'
      ({ b.resetStatements with fileNames := b.resetStatements.fileNames ++ [w.path] },
        .returns .done) := by
  obtain ⟨db, row, hdb, hpartly, hfilled, hrow⟩ := hunder.partly h hlooks hholds hfirst
  have hatomic : Gtar.Atomic p.journal op := h.atomic [] op calls hcalls
  obtain ⟨hopened, hjournal⟩ := WriterOp.step_of_bulk hop hw hatomic
  have hwritten : (w.path, w.contents) ∈ W :=
    h.allowed op (by rw [hcalls]; exact List.mem_cons_self) _ (WriterOp.written?_of_write? hop)
  -- The record is stored behind what waits.
  have hstored := (hpartly.insertChunk hget).eq_attempt (hlength ▸ hfilled.insertChunk hget)
  rw [hrow rfl (hunder.bulk rfl hw)] at hstored
  have hnew : b.connection.working.Holds lz4 (log ++ (p.journal.step op).pending) := by
    rw [hb.connection, hjournal, ← List.append_assoc]
    show Db.Holds lz4 (p.archive.connection.working.insertChunk w.path k chunk) _
    rw [hstored]
    refine hW.store hlz4 hdb (fun e he => ?_) hwritten
    rcases List.mem_append.mp he with hold | hwaits
    · exact hlog e hold
    · exact h.pending e hwaits
  have hcommitted : b.connection.committed = file := by
    rw [hb.connection]
    exact hlooks.committed
  refine fun _ => ⟨[], Fine.moves ?_ hholds ?_ hcommitted⟩
  · apply h.finishes hcalls hb.mode hcommitted
    · exact fun hno => absurd hlock' (Bool.eq_false_iff.mp hno)
    · intro hout
      rw [hb.connection] at hout
      cases hout
    · rw [hb.connection, hjournal]
      exact hopened.symm
    · exact fun _ => hnew
  · rw [journal_give]
    show (p.journal.step op).durable = p.journal.durable
    rw [hjournal]

end

/-- A chunk. -/
theorem Fine.chunk (hlz4 : lz4.Inverts) (hW : Alike W) (h : Fine lz4 W log file lock p)
    (hlooks : Looks file lock p) (hholds : file.Holds lz4 log) (hlog : ∀ e ∈ log, e ∈ W)
    (hcalls : p.calls = op :: calls) (hop : op.write? = some w)
    (hin : p.archive.connection.inTransaction = true) {chunk : Bytes} {rest : List Bytes}
    (hchunks : (encode lz4 w).chunks.drop k = chunk :: rest)
    (hunder : Underway lz4 log lock p w k true) (hfirst : lock.writes = false → k = 0)
    {env : SqliteEnv} (hverdicts : env.verdicts = [if granted then .ok else .busy])
    (hlocks : LockStep (.writePtr w (.chunk k chunk rest)) p lock lock' granted) :
    Advances lz4 W log file lock p (.writePtr w (.chunk k chunk rest)) op granted lock'
      (Task.step lz4 env (p.archive.meet env) (.writePtr w (.chunk k chunk rest))) := by
  obtain ⟨hgranted, hrefused⟩ := hlocks.write rfl hin
  obtain ⟨hlt, hget, hrest⟩ := of_drop_eq_cons hchunks
  rw [Task.step, stepInsertContents_granted (a := p.archive.meet env) hverdicts hin hunder.contents
    hunder.ready]
  cases hg : granted with
  | false =>
    obtain ⟨rfl, hwaits⟩ := hrefused hg
    obtain ⟨hw, hthrew⟩ := hunder.refused hop hwaits _
    simp only [hw, Bool.false_eq_true, if_false, ne_eq, reduceCtorEq, not_false_eq_true, and_self,
      if_true]
    exact fun hserved => absurd hserved hthrew
  | true =>
    have hlock' : lock'.writes = true := hgranted hg
    simp only [if_true, ne_eq, not_true_eq_false, and_false, if_false, reduceCtorEq]
    -- Of the archive behind the insert only a few fields matter.
    generalize hinserted : SqliteArchive.resetInsertContents _ = b
    have hb : Inserted p.archive w.path k chunk b := by
      rw [← hinserted]
      exact ⟨rfl, rfl, rfl, rfl⟩
    have hin' {t' : Task} : ((p.after (.writePtr w (.chunk k chunk rest)) true b).goOn
        t').archive.connection.inTransaction = true := by
      show b.connection.inTransaction = true
      rw [hb.connection]
    rcases rest with - | ⟨chunk', rest⟩
    · -- It was the last chunk.
      have hlength : (encode lz4 w).chunks.length = k + 1 := by
        have hle := List.drop_eq_nil_iff.mp hrest
        omega
      cases hw : w.immediate with
      | true =>
        -- An immediate write commits next.
        simp only [SqliteArchive.advance, hw, if_true]
        refine hb.advances h hlooks hholds hlock' (.writes rfl hcalls hop ⟨hw, hin', ?_, hlock'⟩)
        rw [hlength]
        exact hb.underway h hlooks hholds hunder hfirst hget hlock'
      | false =>
        simp only [SqliteArchive.advance, hw, Bool.false_eq_true, if_false, SqliteArchive.returned,
          finishWrite, ne_eq, not_true_eq_false]
        exact hb.bulk hlz4 hW h hlooks hholds hlog hcalls hop hw hunder hfirst hget hlength hlock'
    · simp only [SqliteArchive.advance]
      refine hb.advances h hlooks hholds hlock' (.writes rfl hcalls hop ⟨hin', hrest, ?_, ?_⟩)
      · exact hb.underway h hlooks hholds hunder hfirst hget hlock'
      · exact fun hno => absurd hlock' (Bool.eq_false_iff.mp hno)

/-- `COMMIT`. -/
theorem Fine.commit (hlz4 : lz4.Inverts) (hW : Alike W) (h : Fine lz4 W log file lock p)
    (hlooks : Looks file lock p) (hholds : file.Holds lz4 log) (hlog : ∀ e ∈ log, e ∈ W)
    (hcalls : p.calls = op :: calls) (hop : op.write? = some w) (hw : w.immediate = true)
    (hin : p.archive.connection.inTransaction = true)
    (hunder : Underway lz4 log lock p w (encode lz4 w).chunks.length true) (hwriter : lock.writes = true)
    {env : SqliteEnv} (hverdicts : env.verdicts = [if granted then .ok else .busy])
    (hlocks : LockStep (.writePtr w .commit) p lock lock' granted) :
    Advances lz4 W log file lock p (.writePtr w .commit) op granted lock'
      (Task.step lz4 env (p.archive.meet env) (.writePtr w .commit)) := by
  obtain ⟨hgranted, hrefused⟩ := hlocks.commit rfl
  obtain ⟨db, row, hdb, hpartly, hfilled, hrow⟩ := hunder.tables hwriter
  rw [Task.step, stepEnd_granted (a := p.archive.meet env) hverdicts hin]
  cases hg : granted with
  | false =>
    -- Everything is repeated.
    have hlock' : lock'.writes = true := (hrefused hg).trans hwriter
    simp only [Bool.false_eq_true, if_false, if_true]
    refine Fine.advances ?_ hholds hlooks.committed
    apply h.goesOn
    · rfl
    · exact hlooks.committed
    · exact fun hno => absurd hlock' (Bool.eq_false_iff.mp hno)
    · exact fun hout => Bool.noConfusion hout
    · refine .writes rfl hcalls hop ⟨hw, ?_⟩
      refine .of_unnamed hunder.filename hunder.contents hunder.ready ?_ fun _ => ⟨db, row, hdb, hpartly⟩
      show (_ && _) = false
      rw [hunder.contentsActive, Bool.and_false]
  | true =>
    -- The record is in the file, behind what was waiting.
    -- A `COMMIT` is granted only when no insert of the program is still waiting, so the row is there.
    obtain ⟨hidle, hlock'⟩ := hgranted hg
    have hactive : p.filenameActive = false := (Bool.or_eq_false_iff.mp hidle).1
    have hjournal := WriterOp.step_of_immediate hop hw p.journal
    have hwritten : (w.path, w.contents) ∈ W :=
      h.allowed op (by rw [hcalls]; exact List.mem_cons_self) _ (WriterOp.written?_of_write? hop)
    have hstored := hpartly.eq_attempt hfilled
    rw [hrow rfl hactive] at hstored
    have hnew : p.archive.connection.working.Holds lz4
        (log ++ (p.journal.pending ++ [(w.path, w.contents)])) := by
      rw [← List.append_assoc, hstored]
      refine hW.store hlz4 hdb (fun e he => ?_) hwritten
      rcases List.mem_append.mp he with hold | hwaits
      · exact hlog e hold
      · exact h.pending e hwaits
    simp only [if_true, reduceCtorEq, if_false, SqliteArchive.returned, finishWrite, ne_eq,
      not_true_eq_false]
    refine fun _ => ⟨p.journal.pending ++ [(w.path, w.contents)], ?_, hnew, ?_, ?_, ?_⟩
    · apply h.finishes hcalls
      · rfl
      · rfl
      · exact fun _ => by rw [hjournal]
      · exact fun _ => hlock'
      · rw [hjournal]
        rfl
      · intro hwrites
        rw [hlock'] at hwrites
        cases hwrites
    · rw [journal_give]
      show (p.journal.step op).durable = _
      rw [hjournal, List.append_assoc]
    · intro e he
      rcases List.mem_append.mp he with hwaits | hnew
      · exact h.pending e hwaits
      · rw [List.mem_singleton.mp hnew]
        exact hwritten
    · intro hno
      rw [hwriter] at hno
      cases hno

/-! ## Turns of a program -/

/-- A statement of a call. -/
theorem Fine.statement (hlz4 : lz4.Inverts) (hW : Alike W) (h : Fine lz4 W log file lock p)
    (hlooks : Looks file lock p) (hholds : file.Holds lz4 log) (hlog : ∀ e ∈ log, e ∈ W)
    (htask : p.task = some t) (hcalls : p.calls = op :: calls) {env : SqliteEnv}
    (hverdicts : env.verdicts = [if granted then .ok else .busy])
    (hlocks : LockStep t p lock lock' granted) :
    Advances lz4 W log file lock p t op granted lock' (t.step lz4 env (p.archive.meet env)) := by
  have hnothing (hasks : t.asks = .nothing) : env.verdicts = [.ok] ∧ lock' = lock := by
    obtain ⟨hg, hsame⟩ := hlocks.nothing hasks
    rw [hg] at hverdicts
    exact ⟨hverdicts, hsame⟩
  -- The invariant says which call is under way, and what is known in front of its statement.
  rcases h.stands with ⟨hidle, -⟩ | ⟨hbegins, hcalls', hrests⟩ | ⟨hends, hcalls', hrests⟩ |
    ⟨hwrites, hcalls', hop, hfront⟩
  · rw [htask] at hidle
    cases hidle
  · obtain rfl := Option.some.inj (htask.symm.trans hbegins)
    obtain ⟨rfl, rfl⟩ := List.cons.inj (hcalls.symm.trans hcalls')
    obtain ⟨hok, rfl⟩ := hnothing rfl
    exact h.beginBulkWrites hlooks hholds hcalls hrests hok
  · obtain rfl := Option.some.inj (htask.symm.trans hends)
    obtain ⟨rfl, rfl⟩ := List.cons.inj (hcalls.symm.trans hcalls')
    exact h.endBulkWrites hlooks hholds hcalls hrests hverdicts hlocks
  · obtain rfl := Option.some.inj (htask.symm.trans hwrites)
    obtain ⟨rfl, rfl⟩ := List.cons.inj (hcalls.symm.trans hcalls')
    rename_i point
    cases point with
    | begin =>
      obtain ⟨hok, rfl⟩ := hnothing rfl
      exact h.begin hlooks hholds hcalls hop hfront.2 hok
    | filename => exact h.filename hW hlooks hholds hcalls hop hfront.1 hfront.2 hverdicts hlocks
    | chunk k chunk rest =>
      obtain ⟨hin, hchunks, hunder, hfirst⟩ := hfront
      exact h.chunk hlz4 hW hlooks hholds hlog hcalls hop hin hchunks hunder hfirst hverdicts hlocks
    | commit =>
      obtain ⟨hw, hin, hunder, hwriter⟩ := hfront
      exact h.commit hlz4 hW hlooks hholds hlog hcalls hop hw hin hunder hwriter hverdicts hlocks

/-- Between two calls no write is under way. -/
theorem Fine.rests (h : Fine lz4 W log file lock p) (htask : p.task = none) : Rests lz4 log lock p := by
  rcases h.stands with ⟨-, hrests⟩ | ⟨hbegins, -, -⟩ | ⟨hends, -, -⟩ | ⟨hwrites, -, -, -⟩
  · exact hrests
  · rw [htask] at hbegins
    cases hbegins
  · rw [htask] at hends
    cases hends
  · rw [htask] at hwrites
    cases hwrites

/-- A write begins. -/
theorem Fine.startWrite (h : Fine lz4 W log file lock p) (htask : p.task = none)
    (hcalls : p.calls = op :: calls) (hop : op.write? = some w) (memory : Memory) :
    Fine lz4 W log file lock ({ p with archive := p.archive.bindRecord memory w.path (encode lz4 w) }.goOn
      (.writePtr w (if w.immediate then .begin else .filename))) := by
  have hrests := h.rests htask
  -- Both inserts were reset behind the last write, so they take the new parameters.
  have hbound : (p.archive.bindRecord memory w.path (encode lz4 w)).insertFilenameStmt.bindings =
        some (w.path, (encode lz4 w).row) ∧
      (p.archive.bindRecord memory w.path (encode lz4 w)).insertContentsStmt.bindings.path = some w.path ∧
      (p.archive.bindRecord memory w.path (encode lz4 w)).insertContentsStmt.stepped = false := by
    unfold bindRecord Statement.bind
    dsimp only
    rw [hrests.filename, hrests.contents]
    exact ⟨rfl, rfl, rfl⟩
  have hunder : Underway lz4 log lock
      ({ p with archive := p.archive.bindRecord memory w.path (encode lz4 w) }.goOn
        (.writePtr w (if w.immediate then .begin else .filename))) w 0 false :=
    .of_unnamed hbound.1 hbound.2.1 hbound.2.2 hrests.contentsActive
      fun hwrites => ⟨_, false, hrests.tables hwrites, Db.Partly.refl _ _ _⟩
  refine { h with stands := .writes rfl hcalls hop ?_ }
  cases hw : w.immediate with
  | true =>
    rw [if_pos rfl]
    rw [hw] at hunder
    exact ⟨hw, hunder⟩
  | false =>
    rw [if_neg Bool.false_ne_true]
    rw [hw] at hunder
    refine ⟨?_, hunder⟩
    exact hrests.transaction.trans (WriterOp.step_of_bulk hop hw (h.atomic [] op calls hcalls)).1

/-- A read changes nothing. -/
theorem Fine.read (h : Fine lz4 W log file lock p) (hlooks : Looks file lock p) (htask : p.task = none)
    {path : Bytes} (hcalls : p.calls = .readBytes path :: calls) (hlock : lock'.writes = lock.writes)
    (env : SqliteEnv) (answer : Answer) :
    Fine lz4 W log file lock'
      ({ p with archive := (p.archive.read lz4 path env).1 }.give (.readBytes path) answer) := by
  have hrests := h.rests htask
  obtain ⟨verdicts, select, heq⟩ := read_frame lz4 p.archive path env
  rw [heq]
  apply h.gives hcalls
  · exact ⟨rfl, rfl⟩
  · rfl
  · exact hlooks.committed
  · exact fun hno => h.waits (hlock ▸ hno)
  · exact fun hout => hlock.trans (h.outside hout)
  · refine ⟨hrests.filename, hrests.contents, hrests.filenameActive, hrests.contentsActive, ?_, ?_⟩
    · rw [journal_give]
      exact hrests.transaction
    · rw [journal_give]
      exact fun hwrites => hrests.tables (hlock ▸ hwrites)

end Process

end Libgetar
