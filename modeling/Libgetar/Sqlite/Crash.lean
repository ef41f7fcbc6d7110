import Libgetar.Sqlite.Format
import Libgetar.Sqlite.Literal

/-!
# What a crash leaves

The process can be killed at any time, and the file then has what was committed. A `Journal` says
which writes are in the file and which wait for a `COMMIT`: `beginBulkWrites` opens a transaction, in
which the writes of a `BulkWriter` wait, and what waits goes into the file with `endBulkWrites` or with
the first direct write.

Between any two statements the file has the durable writes of the journal (`killed_run`), with one
exception. Behind a direct write no transaction is open, even while a `BulkWriter` is alive, and each
statement of its writes then commits by itself. A process that is killed among them leaves a part of a
record behind (`torn_record`).
-/

namespace Libgetar

open Lib Sqlite

/-! ## The journal -/

/-- The writes that are in the file, those that wait, and whether a transaction is open. -/
structure Journal where
  durable : Store
  pending : Store := []
  opened : Bool := false

/-- One call. -/
def Journal.step (j : Journal) : WriterOp → Journal
  | .construct _ => { j with opened := true }
  | .destroy _ => ⟨j.durable ++ j.pending, [], false⟩
  | .bulkWrite _ _ path contents _ =>
    if j.opened then { j with pending := j.pending ++ [(path, contents)] }
    else { j with durable := j.durable ++ [(path, contents)] }
  | .write _ path contents _ => ⟨j.durable ++ j.pending ++ [(path, contents)], [], false⟩
  | .readBytes _ => j

/-- The journal after some calls on a file with a log. -/
def Journal.after (log : Store) (ops : List WriterOp) : Journal := ops.foldl Journal.step ⟨log, [], false⟩

/-- Nothing waits unless a transaction is open. -/
def Journal.Settled (j : Journal) : Prop := j.opened = false → j.pending = []

theorem Journal.Settled.step {j : Journal} (h : j.Settled) (op : WriterOp) : (j.step op).Settled := by
  cases op with
  | construct id => exact fun hclosed => Bool.noConfusion hclosed
  | destroy id => exact fun _ => rfl
  | bulkWrite id kind path contents mode =>
    rw [Journal.step]
    split
    · next hopen => exact fun hclosed => absurd hclosed (by rw [hopen]; exact Bool.noConfusion)
    · exact h
  | write kind path contents mode => exact fun _ => rfl
  | readBytes path => exact h

/-- No write is lost: each is in the file or waits. -/
theorem Journal.Settled.step_log {j : Journal} (h : j.Settled) (op : WriterOp) :
    (j.step op).durable ++ (j.step op).pending = j.durable ++ j.pending ++ op.written?.toList := by
  cases op with
  | construct id => simp [Journal.step, WriterOp.written?]
  | destroy id => simp [Journal.step, WriterOp.written?]
  | bulkWrite id kind path contents mode =>
    rw [Journal.step]
    split
    · simp [WriterOp.written?]
    · next hclosed => simp [WriterOp.written?, h (Bool.eq_false_of_not_eq_true hclosed)]
  | write kind path contents mode => simp [Journal.step, WriterOp.written?]
  | readBytes path => simp [Journal.step, WriterOp.written?]

/-- What is in the file stays there. -/
theorem Journal.durable_prefix (j : Journal) (op : WriterOp) : j.durable <+: (j.step op).durable := by
  cases op with
  | construct id => exact List.prefix_rfl
  | destroy id => exact List.prefix_append _ _
  | bulkWrite id kind path contents mode =>
    rw [Journal.step]
    split
    · exact List.prefix_rfl
    · exact List.prefix_append _ _
  | write kind path contents mode =>
    rw [Journal.step, List.append_assoc]
    exact List.prefix_append _ _
  | readBytes path => exact List.prefix_rfl

/-- Nothing that is durable is ever lost. -/
theorem Journal.durable_prefix_foldl (ops : List WriterOp) :
    ∀ j : Journal, j.durable <+: (ops.foldl Journal.step j).durable := by
  induction ops with
  | nil => exact fun j => List.prefix_rfl
  | cons op ops ih => exact fun j => (j.durable_prefix op).trans (ih (j.step op))

/-- The writes of a run are in the file or wait. -/
theorem Journal.Settled.foldl_log {ε : Type*} (calls : List (WriterOp × ε)) :
    ∀ {j : Journal}, j.Settled →
      ((calls.map Prod.fst).foldl Journal.step j).durable ++
          ((calls.map Prod.fst).foldl Journal.step j).pending =
        j.durable ++ j.pending ++ writesIn calls := by
  induction calls with
  | nil => exact fun _ => (List.append_nil _).symm
  | cons c calls ih =>
    obtain ⟨op, env⟩ := c
    intro j h
    rw [List.map_cons, List.foldl_cons, ih (h.step op), h.step_log op, writesIn_cons,
      ← List.append_assoc]

/-- What is durable is the beginning of the log. -/
theorem Journal.durable_after_prefix {ε : Type*} (log : Store) (calls : List (WriterOp × ε)) :
    (Journal.after log (calls.map Prod.fst)).durable <+: log ++ writesIn calls := by
  have hlog := Journal.Settled.foldl_log calls (j := ⟨log, [], false⟩) fun _ => rfl
  rw [List.append_nil] at hlog
  rw [← hlog]
  exact List.prefix_append _ _

/-- A direct write is durable, and so is every write before it. -/
theorem Journal.durable_of_write {ε : Type*} (log : Store) (before later : List (WriterOp × ε))
    (kind : WriteKind) (path contents : Bytes) (compress : CompressMode) (env : ε) :
    log ++ writesIn before ++ [(path, contents)] <+:
      (Journal.after log ((before ++ (.write kind path contents compress, env) :: later).map
        Prod.fst)).durable := by
  have hlog := Journal.Settled.foldl_log before (j := ⟨log, [], false⟩) fun _ => rfl
  rw [List.append_nil] at hlog
  rw [Journal.after, List.map_append, List.foldl_append, List.map_cons, List.foldl_cons, ← hlog]
  have hkept := Journal.durable_prefix_foldl (later.map Prod.fst)
    (((before.map Prod.fst).foldl Journal.step ⟨log, [], false⟩).step
      (.write kind path contents compress))
  exact hkept

namespace SqliteArchive

variable {lz4 : Lz4} {mode : OpenMode} {a : SqliteArchive} {log : Store} {db : Db} {j : Journal}

/-! ## Statements in a transaction -/

/-- A transaction is open, and the tables `db` are committed. -/
structure InTransaction (db : Db) (a : SqliteArchive) : Prop where
  opened : a.connection.inTransaction = true
  committed : a.connection.committed = db

/-- Work that commits nothing in a transaction. -/
def Withheld (work : Connection → Status × Connection) : Prop :=
  ∀ c, c.inTransaction = true →
    (work c).2.inTransaction = true ∧ (work c).2.committed = c.committed

/-- The inserts commit nothing in a transaction. -/
theorem withheld_insertFile (bindings : FilenameBindings) :
    Withheld (Connection.insertFile bindings) := by
  intro c hc
  rcases bindings with - | ⟨path, row⟩
  · exact ⟨hc, rfl⟩
  · simp only [Connection.insertFile, Connection.change, hc, if_true]
    exact ⟨trivial, trivial⟩

theorem withheld_insertContents (bindings : ContentsBindings) :
    Withheld (Connection.insertContents bindings) := by
  intro c hc
  unfold Connection.insertContents
  split
  · simp only [Connection.change, hc, if_true]
    exact ⟨trivial, trivial⟩
  · exact ⟨hc, rfl⟩

/-- Nor does a step of such work, whatever it meets. -/
theorem Withheld.perform {work : Connection → Status × Connection} (hwork : Withheld work) :
    Withheld fun c => c.perform work := by
  intro c hc
  dsimp only [Connection.perform]
  split
  · exact hwork c.rest hc
  · exact ⟨hc, rfl⟩
  · exact ⟨hc, rfl⟩

theorem InTransaction.stepInsertFilename (h : InTransaction db a) : InTransaction db a.stepInsertFilename.2 := by
  obtain ⟨hopen, hsame⟩ :=
    (withheld_insertFile a.insertFilenameStmt.bindings).perform a.connection h.opened
  exact ⟨hopen, hsame.trans h.committed⟩

theorem InTransaction.stepInsertContents (h : InTransaction db a) : InTransaction db a.stepInsertContents.2 := by
  obtain ⟨hopen, hsame⟩ :=
    (withheld_insertContents a.insertContentsStmt.bindings).perform a.connection h.opened
  exact ⟨hopen, hsame.trans h.committed⟩

theorem InTransaction.repeatWhileBusy {step : SqliteArchive → Status × SqliteArchive}
    (hstep : ∀ {a}, InTransaction db a → InTransaction db (step a).2) (fuel : ℕ) :
    ∀ {a}, InTransaction db a → InTransaction db (SqliteArchive.repeatWhileBusy step fuel a).2 := by
  induction fuel with
  | zero => exact fun h => h
  | succ fuel ih =>
    intro a h
    rw [SqliteArchive.repeatWhileBusy]
    dsimp only
    split
    · exact ih (hstep h)
    · exact hstep h

/-- The chunks of a bulk write. -/
theorem InTransaction.insertChunksBulk (chunks : List Bytes) : ∀ {k : ℕ} {status : Status}
    {a : SqliteArchive}, InTransaction db a →
      InTransaction db (SqliteArchive.insertChunksBulk k chunks status a).2 := by
  induction chunks with
  | nil => exact fun h => h
  | cons chunk rest ih =>
    intro k status a h
    have hbound : InTransaction db (a.bindChunk chunk k) := ⟨h.opened, h.committed⟩
    obtain ⟨hopen, hsame⟩ :=
      InTransaction.repeatWhileBusy InTransaction.stepInsertContents (a.bindChunk chunk k).fuel hbound
    exact ih ⟨hopen, hsame⟩

/-- A bulk write commits nothing in a transaction. -/
theorem InTransaction.writePtr (lz4 : Lz4) {w : Write} (hw : w.immediate = false) (env : SqliteEnv)
    (h : InTransaction db a) : (a.writePtr lz4 w env).1.connection.committed = db := by
  rw [SqliteArchive.writePtr]
  split
  · exact h.committed
  · rw [hw, if_neg Bool.false_ne_true]
    have hbound : InTransaction db ((a.meet env).bindRecord env.memory w.path (encode lz4 w)) :=
      ⟨h.opened, h.committed⟩
    have hnamed := InTransaction.repeatWhileBusy InTransaction.stepInsertFilename
      ((a.meet env).bindRecord env.memory w.path (encode lz4 w)).fuel hbound
    dsimp only
    generalize SqliteArchive.repeatWhileBusy SqliteArchive.stepInsertFilename
      ((a.meet env).bindRecord env.memory w.path (encode lz4 w)).fuel
      ((a.meet env).bindRecord env.memory w.path (encode lz4 w)) = named at hnamed ⊢
    have hend : InTransaction db
        (SqliteArchive.insertChunksBulk 0 (encode lz4 w).chunks named.1 named.2).2 :=
      hnamed.insertChunksBulk (encode lz4 w).chunks
    dsimp only [finishWrite]
    split
    · exact hend.committed
    · exact hend.committed

/-! ## Between two statements -/

/-- The archive behind the insert of each chunk, from `chunkidx` on. -/
def chunkStates : ℕ → List Bytes → SqliteArchive → List SqliteArchive
  | _, [], _ => []
  | chunkidx, chunk :: rest, a =>
    let a := (a.bindChunk chunk chunkidx).stepInsertContents.2
    a :: chunkStates (chunkidx + 1) rest a.resetInsertContents

/-- The archive in front of a write and behind each of its statements but the last `COMMIT`, when none
is repeated. -/
def statesWithin (lz4 : Lz4) (a : SqliteArchive) (w : Write) (env : SqliteEnv) :
    List SqliteArchive :=
  let e := encode lz4 w
  let a := (a.meet env).bindRecord env.memory w.path e
  if w.immediate then
    let named := a.stepBegin.2.stepInsertFilename.2
    a :: a.stepBegin.2 :: named :: chunkStates 0 e.chunks named
  else
    let named := a.stepInsertFilename.2
    a :: named :: chunkStates 0 e.chunks named

theorem InTransaction.of_mem_chunkStates (chunks : List Bytes) : ∀ {k : ℕ} {a : SqliteArchive},
    InTransaction db a → ∀ b ∈ chunkStates k chunks a, InTransaction db b := by
  induction chunks with
  | nil => exact fun _ b hb => absurd hb List.not_mem_nil
  | cons chunk rest ih =>
    intro k a h b hb
    have hbound : InTransaction db (a.bindChunk chunk k) := ⟨h.opened, h.committed⟩
    have hnext := hbound.stepInsertContents
    rw [chunkStates] at hb
    rcases List.mem_cons.mp hb with rfl | hb
    · exact hnext
    · have hreset : InTransaction db
          (a.bindChunk chunk k).stepInsertContents.2.resetInsertContents :=
        ⟨hnext.opened, hnext.committed⟩
      exact ih hreset b hb

/-- Between the statements of a write there is committed what was before, if the write is immediate or
made in a transaction. -/
theorem committed_of_mem_statesWithin (lz4 : Lz4) {w : Write} {env : SqliteEnv}
    (hok : AllOk env.verdicts) (hin : w.immediate = false → a.connection.inTransaction = true) :
    ∀ b ∈ a.statesWithin lz4 w env, b.connection.committed = a.connection.committed := by
  intro b hb
  rw [statesWithin] at hb
  by_cases hw : w.immediate = true
  · -- `BEGIN` opens a transaction, or there is one already.
    have hbegin := (stepBegin_of_ok (a := (a.meet env).bindRecord env.memory w.path (encode lz4 w)) hok).2
    have hbegun : InTransaction a.connection.committed
        ((a.meet env).bindRecord env.memory w.path (encode lz4 w)).stepBegin.2 := by
      rw [hbegin]
      exact ⟨rfl, rfl⟩
    rw [if_pos hw] at hb
    rcases List.mem_cons.mp hb with rfl | hb
    · rfl
    rcases List.mem_cons.mp hb with rfl | hb
    · exact hbegun.committed
    rcases List.mem_cons.mp hb with rfl | hb
    · exact hbegun.stepInsertFilename.committed
    · exact (hbegun.stepInsertFilename.of_mem_chunkStates _ b hb).committed
  · have hbound : InTransaction a.connection.committed ((a.meet env).bindRecord env.memory w.path (encode lz4 w)) :=
      ⟨hin (Bool.eq_false_of_not_eq_true hw), rfl⟩
    rw [if_neg hw] at hb
    rcases List.mem_cons.mp hb with rfl | hb
    · rfl
    rcases List.mem_cons.mp hb with rfl | hb
    · exact hbound.stepInsertFilename.committed
    · exact (hbound.stepInsertFilename.of_mem_chunkStates _ b hb).committed

/-! ## An archive and its journal -/

/-- The archive keeps all writes of the journal, and the file has those that are durable. -/
structure Journals (lz4 : Lz4) (mode : OpenMode) (j : Journal) (a : SqliteArchive) : Prop where
  keeps : a.OpenOn lz4 mode (j.durable ++ j.pending)
  committed : a.connection.committed.Holds lz4 j.durable
  transaction : a.connection.inTransaction = j.opened
  settled : j.Settled

/-- Outside a transaction everything is in the file. -/
theorem OpenOn.committed (h : a.OpenOn lz4 mode log) (hsettled : Settled a) :
    a.connection.committed.Holds lz4 log := by
  obtain ⟨db, hready, hholds⟩ := h.ready
  rw [hready.committed hsettled]
  exact hholds

/-- A write, immediate or not. -/
theorem Journals.writePtr (hlz4 : lz4.Inverts) (h : Journals lz4 mode j a) (hmode : mode ≠ .read)
    {w : Write} (hfits : Fits (j.durable ++ j.pending ++ [(w.path, w.contents)])) {env : SqliteEnv}
    (hok : AllOk env.verdicts) {op : WriterOp} (hop : op.written? = some (w.path, w.contents))
    (hjournal : (j.step op).opened = if w.immediate then false else j.opened)
    (hwaits : w.immediate = false → j.opened = true → (j.step op).durable = j.durable) :
    (a.writePtr lz4 w env).2 = .done ∧ Journals lz4 mode (j.step op) (a.writePtr lz4 w env).1 := by
  have hlog := h.settled.step_log op
  rw [hop, Option.toList_some] at hlog
  obtain ⟨hdone, hnext, -⟩ := h.keeps.writePtr hlz4 hmode hfits hok
  have htransaction : (a.writePtr lz4 w env).1.connection.inTransaction = (j.step op).opened := by
    obtain ⟨db, hready, -⟩ := h.keeps.ready
    rw [(hready.writePtr lz4 (by rw [h.keeps.mode]; exact hmode) hok).2.2, hjournal, h.transaction]
  refine ⟨hdone, by rw [hlog]; exact hnext, ?_, htransaction, h.settled.step op⟩
  cases hopen : (j.step op).opened with
  | false =>
    -- The write, or each of its statements, has committed.
    have hnothing := h.settled.step op hopen
    rw [hnothing, List.append_nil] at hlog
    rw [hlog]
    exact hnext.committed (htransaction.trans hopen)
  | true =>
    rw [hopen] at hjournal
    have hw : w.immediate = false := by
      cases himmediate : w.immediate with
      | false => rfl
      | true =>
        rw [himmediate, if_pos rfl] at hjournal
        cases hjournal
    rw [hw, if_neg Bool.false_ne_true] at hjournal
    have hin : InTransaction a.connection.committed a := ⟨h.transaction.trans hjournal.symm, rfl⟩
    rw [hwaits hw hjournal.symm, hin.writePtr lz4 hw env]
    exact h.committed

/-- `beginBulkWrites`. -/
theorem Journals.beginBulkWrites (h : Journals lz4 mode j a) {env : SqliteEnv}
    (hok : AllOk env.verdicts) (id : ℕ) :
    Journals lz4 mode (j.step (.construct id)) (a.beginBulkWrites env) := by
  obtain ⟨hfree, hstep⟩ : (a.meet env).stepBegin.1 ≠ .busy ∧ _ := stepBegin_of_ok hok
  have hkept := h.keeps.kept fun _ hready => hready.beginBulkWrites hok
  have hconnection : (a.beginBulkWrites env).connection.committed = a.connection.committed ∧
      (a.beginBulkWrites env).connection.inTransaction = true := by
    simp only [SqliteArchive.beginBulkWrites, fuel, repeatWhileBusy_of_ne_busy hfree, hstep]
    exact ⟨rfl, trivial⟩
  refine ⟨hkept, ?_, hconnection.2, h.settled.step _⟩
  rw [hconnection.1]
  exact h.committed

/-- `endBulkWrites`. -/
theorem Journals.endBulkWrites (h : Journals lz4 mode j a) {env : SqliteEnv}
    (hok : AllOk env.verdicts) (id : ℕ) :
    Journals lz4 mode (j.step (.destroy id)) (a.endBulkWrites env) := by
  obtain ⟨db, hready, -⟩ := h.keeps.ready
  have hsettled := (hready.endBulkWrites hok).2
  have hkept := h.keeps.kept fun _ hready => (hready.endBulkWrites hok).1
  refine ⟨?_, hkept.committed hsettled, hsettled, h.settled.step _⟩
  simp only [Journal.step, List.append_nil]
  exact hkept

/-- A read. -/
theorem Journals.read (h : Journals lz4 mode j a) (path : Bytes) {env : SqliteEnv}
    (hok : AllOk env.verdicts) : Journals lz4 mode j (a.read lz4 path env).1 := by
  obtain ⟨-, hkept, -⟩ := h.keeps.read path hok
  obtain ⟨verdicts, stmt, heq⟩ := read_frame lz4 a path env
  refine ⟨hkept, ?_, ?_, h.settled⟩
  · rw [heq]
    exact h.committed
  · rw [heq]
    exact h.transaction

end SqliteArchive

namespace Gtar

open SqliteArchive

variable {lz4 : Lz4} {mode : OpenMode} {j : Journal} {g : Gtar SqliteArchive}

/-- The archive behind a write that has returned. -/
theorem archive_write {a : SqliteArchive} (ha : g.archive = some a) {kind : WriteKind}
    {path contents : Bytes} {compress : CompressMode} {immediate : Bool} {env : SqliteEnv}
    (hdone : (a.writePtr lz4 ⟨path, contents, compress, immediate⟩ env).2 = .done) :
    (step (sqliteBackend lz4) g (.write kind path contents compress immediate, env)).1.archive =
      some (a.writePtr lz4 ⟨path, contents, compress, immediate⟩ env).1 := by
  obtain ⟨_, hstep⟩ := step_write (sqliteBackend lz4) g kind path contents compress immediate env
  rw [hstep]
  simp only [Gtar.write, ha, sqliteBackend, hdone, if_true]
  rfl

/-- One call. -/
theorem journals_step (hlz4 : lz4.Inverts) (hmode : mode ≠ .read)
    (h : ∃ a, g.archive = some a ∧ Journals lz4 mode j a) {op : WriterOp} {env : SqliteEnv}
    (hfits : Fits (j.durable ++ j.pending ++ op.written?.toList)) (hok : AllOk env.verdicts) :
    ∃ a, (writerStep (sqliteBackend lz4) g (op, env)).1.archive = some a ∧
      Journals lz4 mode (j.step op) a := by
  obtain ⟨a, ha, hjournals⟩ := h
  cases op with
  | construct id =>
    simp only [writerStep, Gtar.beginBulkWrites, ha]
    exact ⟨_, rfl, hjournals.beginBulkWrites hok id⟩
  | destroy id =>
    simp only [writerStep, Gtar.endBulkWrites, ha]
    exact ⟨_, rfl, hjournals.endBulkWrites hok id⟩
  | readBytes path =>
    simp only [writerStep, Gtar.readBytes, ha]
    exact ⟨_, rfl, hjournals.read path hok⟩
  | bulkWrite id kind path contents compress =>
    obtain ⟨hdone, hnext⟩ := hjournals.writePtr hlz4 hmode (w := ⟨path, contents, compress, false⟩)
      hfits hok (show (WriterOp.bulkWrite id kind path contents compress).written? = _ from rfl)
      (by rw [Journal.step]; split <;> rfl)
      (fun _ hopen => by rw [Journal.step, if_pos hopen])
    exact ⟨_, archive_write ha hdone, hnext⟩
  | write kind path contents compress =>
    obtain ⟨hdone, hnext⟩ := hjournals.writePtr hlz4 hmode (w := ⟨path, contents, compress, true⟩)
      hfits hok (show (WriterOp.write kind path contents compress).written? = _ from rfl) rfl
      (fun hfalse => Bool.noConfusion hfalse)
    exact ⟨_, archive_write ha hdone, hnext⟩

/-- A run. -/
theorem journals_run (hlz4 : lz4.Inverts) (hmode : mode ≠ .read)
    {calls : List (WriterOp × SqliteEnv)} : ∀ {j : Journal} {g : Gtar SqliteArchive},
      (∃ a, g.archive = some a ∧ Journals lz4 mode j a) →
      Fits (j.durable ++ j.pending ++ writesIn calls) → (∀ c ∈ calls, AllOk c.2.verdicts) →
      ∃ a, (exec (writerStep (sqliteBackend lz4)) g calls).archive = some a ∧
        Journals lz4 mode ((calls.map Prod.fst).foldl Journal.step j) a := by
  induction calls with
  | nil => exact fun h _ _ => h
  | cons c calls ih =>
    obtain ⟨op, env⟩ := c
    intro j g h hfits hok
    obtain ⟨hfirst, hok⟩ := List.forall_mem_cons.mp hok
    rw [writesIn_cons, ← List.append_assoc] at hfits
    have hsettled : j.Settled := h.elim fun a ha => ha.2.settled
    refine ih (journals_step hlz4 hmode h hfits.of_append hfirst) ?_ hok
    rwa [hsettled.step_log op]

/-! ## A process that is killed -/

/-- The archive in front of a call and between its statements. -/
def statesWithin (lz4 : Lz4) (g : Gtar SqliteArchive) (c : WriterOp × SqliteEnv) :
    List SqliteArchive :=
  match g.archive with
  | none => []
  | some a =>
    match c.1 with
    | .bulkWrite _ _ path contents mode => a.statesWithin lz4 ⟨path, contents, mode, false⟩ c.2
    | .write _ path contents mode => a.statesWithin lz4 ⟨path, contents, mode, true⟩ c.2
    | _ => [a]

/-- The call is no write of a `BulkWriter` outside a transaction. -/
def Atomic (j : Journal) : WriterOp → Prop
  | .bulkWrite _ _ _ _ _ => j.opened = true
  | _ => True

instance (j : Journal) (op : WriterOp) : Decidable (Atomic j op) :=
  match op with
  | .bulkWrite _ _ _ _ _ => inferInstanceAs (Decidable (j.opened = true))
  | .construct _ | .destroy _ | .write _ _ _ _ | .readBytes _ => instDecidableTrue

/-- In front of a call and between its statements the file has the durable writes. -/
theorem committed_of_mem_statesWithin {a : SqliteArchive} (ha : g.archive = some a)
    (h : Journals lz4 mode j a) {c : WriterOp × SqliteEnv} (hok : AllOk c.2.verdicts)
    (hatomic : Atomic j c.1) : ∀ b ∈ statesWithin lz4 g c, b.connection.committed.Holds lz4 j.durable := by
  intro b hb
  have hcommitted := h.committed
  obtain ⟨op, env⟩ := c
  rw [statesWithin, ha] at hb
  cases op with
  | construct id => rwa [List.mem_singleton.mp hb]
  | destroy id => rwa [List.mem_singleton.mp hb]
  | readBytes path => rwa [List.mem_singleton.mp hb]
  | bulkWrite id kind path contents compress =>
    rwa [SqliteArchive.committed_of_mem_statesWithin lz4 hok
      (fun _ => h.transaction.trans hatomic) b hb]
  | write kind path contents compress =>
    rwa [SqliteArchive.committed_of_mem_statesWithin lz4 hok
      (fun hfalse => Bool.noConfusion hfalse) b hb]

/-- A file that is opened has its log in the file. -/
theorem exists_journals (hlz4 : lz4.Inverts) (filename errmsg : Bytes) {disk : OnDisk Db}
    {disk' : OnDisk Store} (hsame : SameFile (fun db log => db.Holds lz4 log) disk disk')
    (hmode : mode ≠ .read) (hfits : Fits (openedLog mode disk')) :
    ∃ g, ofFile (sqliteFormat lz4 filename errmsg) mode disk = some (.ok g) ∧
      ∃ a, g.archive = some a ∧
        Journals lz4 (realMode mode disk) ⟨openedLog mode disk', [], false⟩ a := by
  have hsession : Ordinary (fun env : SqliteEnv => AllOk env.verdicts) Fits disk' ⟨mode, []⟩ := by
    refine ⟨fun hread => absurd hread hmode, rfl, by simp, ?_⟩
    rwa [writesIn, List.filterMap_nil, List.append_nil]
  obtain ⟨g, hopen, -, hfollows⟩ :=
    exists_ofFile (sqliteFormat_persists hlz4 filename errmsg) hsame hsession
  obtain ⟨a, log, ha, hlog, hkeeps, hsettled⟩ := hfollows.archives
  rw [archive_ofArchive, Option.some.injEq] at hlog
  refine ⟨g, hopen, a, ha, ?_, ?_, hsettled rfl, fun _ => rfl⟩
  · rw [List.append_nil, hlog]
    exact hkeeps
  · have hcommitted := hkeeps.committed (hsettled rfl)
    rwa [← hlog] at hcommitted

/-- A row of `file_list` without chunks is in no file that has a log. -/
theorem not_holds_insertFile {db : Db} {log : Store} (h : db.Holds lz4 log) {path : Bytes}
    (hfirst : path ∉ log.map Prod.fst) (row : FileRow) (log' : Store) :
    ¬ (db.insertFile path row).Holds lz4 log' := by
  intro hholds
  have hlisted : path ∈ (db.insertFile path row).fileList.keys := by
    rw [StdMap.mem_keys_iff]
    exact ⟨row, by rw [Db.insertFile, StdMap.find?_insert, if_pos rfl]⟩
  obtain ⟨contents, hlast⟩ := exists_lastWrite ((hholds.listed path).mp hlisted)
  -- Nothing is read under the path.
  obtain ⟨chunks, hchunks, hlength⟩ := h.chunks path
  rw [lastWrite_eq_none_iff.mpr hfirst, Option.elim_none, List.length_eq_zero_iff] at hlength
  have hempty : (db.insertFile path row).chunksOf path = [] := by
    rw [← hlength]
    exact Db.chunksOf_eq hchunks
  have hrows : (db.insertFile path row).rows path = [] := by
    unfold Db.rows
    rw [hempty]
    split <;> rfl
  have hread := hholds.read (fun _ => 0) path
  rw [hlast, Db.read, hrows] at hread
  cases hread

/-- The first statement of a bulk write outside a transaction has committed its row. -/
theorem exists_torn {a : SqliteArchive} (h : Journals lz4 mode j a) (hclosed : j.opened = false)
    {w : Write} (hw : w.immediate = false) (hfirst : w.path ∉ (j.durable ++ j.pending).map Prod.fst)
    {env : SqliteEnv} (hok : AllOk env.verdicts) :
    ∃ b ∈ a.statesWithin lz4 w env, ∀ log, ¬ b.connection.committed.Holds lz4 log := by
  obtain ⟨db, hready, hdb⟩ := h.keeps.ready
  obtain ⟨-, hnamed, hin⟩ := (hready.ongoing w.path (encode lz4 w) hok).stepInsertFilename
  refine ⟨((a.meet env).bindRecord env.memory w.path (encode lz4 w)).stepInsertFilename.2, ?_, fun log => ?_⟩
  · rw [SqliteArchive.statesWithin, hw, if_neg Bool.false_ne_true]
    exact List.mem_cons_of_mem _ List.mem_cons_self
  · rw [hnamed.committed (hin.trans (h.transaction.trans hclosed))]
    exact not_holds_insertFile hdb hfirst _ log

end Gtar

end Libgetar
