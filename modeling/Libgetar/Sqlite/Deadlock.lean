import Libgetar.Sqlite.Literal
import Libgetar.Sqlite.Shared

/-!
# Programs that wait for each other

The loops of `SqliteArchive` step a statement that meets a lock until it is granted. A program that
has read in a transaction keeps the writer from its `COMMIT`, and the writer keeps it from its inserts.
A bulk write repeats such an insert, and the transaction with what was read goes on, so that both wait
for ever (`Waits.turn`); an immediate write throws at its first chunk.

There is no other way to get stuck: in every reachable state in which programs hold locks and each of
these meets one, two of them stand in this way, and one of the two has read (`stuck_forever`). So
programs that only write do not get stuck.
-/

namespace Libgetar

open Lib Sqlite SqliteArchive

/-! ## Statements that are bound -/

/-- All parameters are bound. -/
def Sqlite.ContentsBindings.Full (b : ContentsBindings) : Prop :=
  ∃ path contents chunkidx, b = ⟨some path, some contents, some chunkidx⟩

/-- A statement that was stepped had its parameters. -/
def Sqlite.Statement.Bound (s : Statement ContentsBindings) : Prop :=
  s.stepped = true → s.bindings.Full

namespace SqliteArchive

variable {lz4 : Lz4} {env : SqliteEnv} {a : SqliteArchive} {t : Task} {w : Write} {granted : Bool}

/-- The chunk is bound, or the statement was stepped with one before. -/
theorem full_bindChunk (hbound : a.insertContentsStmt.Bound)
    (hpath : a.insertContentsStmt.bindings.path ≠ none) (chunk : Bytes) (chunkidx : ℕ) :
    (a.bindChunk chunk chunkidx).insertContentsStmt.bindings.Full := by
  obtain ⟨path, hpath⟩ := Option.ne_none_iff_exists'.mp hpath
  unfold bindChunk Statement.bind
  cases hstepped : a.insertContentsStmt.stepped with
  | true => exact hbound hstepped
  | false => exact ⟨path, chunk, chunkidx, by rw [← hpath]; rfl⟩

/-- What comes of a statement has its parameters, if it goes on with a write. -/
structure Keeps (result : SqliteArchive × Progress) : Prop where
  bound : result.1.insertContentsStmt.Bound
  path : ∀ w point, result.2 = .goesOn (.writePtr w point) →
    result.1.insertContentsStmt.bindings.path ≠ none
  immediate : ∀ w point, result.2 = .goesOn (.writePtr w point) → point = .begin ∨ point = .commit →
    w.immediate = true

/-- No write goes on. -/
theorem keeps_of_ne {result : SqliteArchive × Progress} (hbound : result.1.insertContentsStmt.Bound)
    (hne : ∀ w point, result.2 ≠ .goesOn (.writePtr w point)) : Keeps result :=
  ⟨hbound, fun w point heq => absurd heq (hne w point), fun w point heq => absurd heq (hne w point)⟩

/-- A write goes on. -/
theorem keeps_goesOn {point : Point} (hbound : a.insertContentsStmt.Bound)
    (hpath : a.insertContentsStmt.bindings.path ≠ none)
    (hpoint : point = .begin ∨ point = .commit → w.immediate = true) :
    Keeps (a, .goesOn (.writePtr w point)) := by
  refine ⟨hbound, fun _ _ _ => hpath, fun w' point' heq hpoint' => ?_⟩
  cases heq
  exact hpoint hpoint'

theorem keeps_finishWrite (path : Bytes) (env : SqliteEnv) (status : Status) (a : SqliteArchive) :
    Keeps (returned (finishWrite path env status a)) := by
  refine keeps_of_ne (fun hstepped => ?_) fun _ _ heq => by cases heq
  unfold returned finishWrite at hstepped
  dsimp only at hstepped
  split at hstepped
  · cases hstepped
  · cases hstepped

theorem keeps_advance (env : SqliteEnv) (chunkidx : ℕ) (rest : List Bytes) (status : Status)
    (hbound : a.insertContentsStmt.Bound) (hpath : a.insertContentsStmt.bindings.path ≠ none) :
    Keeps (advance w env chunkidx rest status a) := by
  unfold advance
  split
  · exact keeps_goesOn hbound hpath (by rintro (h | h) <;> cases h)
  · split
    · next himmediate => exact keeps_goesOn hbound hpath fun _ => himmediate
    · exact keeps_finishWrite w.path env status a

/-- Whatever a statement meets, no insert is stepped without parameters. -/
theorem keeps_step (lz4 : Lz4) (env : SqliteEnv) (hbound : a.insertContentsStmt.Bound)
    (hpath : ∀ w point, t = .writePtr w point → a.insertContentsStmt.bindings.path ≠ none)
    (hpoint : ∀ w point, t = .writePtr w point → point = .begin ∨ point = .commit →
      w.immediate = true) : Keeps (t.step lz4 env a) := by
  cases t with
  | beginBulkWrites =>
    simp only [Task.step]
    split
    · exact keeps_of_ne hbound fun _ _ heq => by cases heq
    · exact keeps_of_ne hbound fun _ _ heq => by cases heq
  | endBulkWrites =>
    simp only [Task.step]
    split
    · exact keeps_of_ne hbound fun _ _ heq => by cases heq
    · exact keeps_of_ne hbound fun _ _ heq => by cases heq
  | writePtr w point =>
    have hsome := hpath w point rfl
    cases point with
    | begin => exact keeps_goesOn hbound hsome (by rintro (h | h) <;> cases h)
    | filename =>
      simp only [Task.step]
      split
      · exact keeps_goesOn hbound hsome (by rintro (h | h) <;> cases h)
      · exact keeps_advance env 0 _ _ hbound hsome
    | chunk chunkidx chunk rest =>
      -- The statement is stepped with all its parameters, and may stay so.
      have hfull := full_bindChunk hbound hsome chunk chunkidx
      have hnext : (a.bindChunk chunk chunkidx).insertContentsStmt.bindings.path ≠ none := by
        obtain ⟨path, contents, idx, heq⟩ := hfull
        rw [heq]
        exact Option.some_ne_none path
      simp only [Task.step]
      split
      · exact keeps_of_ne (fun _ => hfull) fun _ _ heq => by cases heq
      · split
        · exact keeps_goesOn (fun _ => hfull) hnext (by rintro (h | h) <;> cases h)
        · exact keeps_advance env _ _ _ (fun hstepped => Bool.noConfusion hstepped) hnext
    | commit =>
      simp only [Task.step]
      split
      · exact keeps_goesOn hbound hsome fun _ => hpoint w _ rfl (Or.inr rfl)
      · exact keeps_finishWrite w.path env _ _

/-! ## Transactions -/

theorem InTransaction.advance {db : Db} (h : InTransaction db a) (w : Write) (env : SqliteEnv)
    (chunkidx : ℕ) (rest : List Bytes) (status : Status) :
    InTransaction db (advance w env chunkidx rest status a).1 := by
  unfold SqliteArchive.advance
  split
  · exact h
  · split
    · exact h
    · unfold returned finishWrite
      dsimp only
      split
      · exact ⟨h.opened, h.committed⟩
      · exact ⟨h.opened, h.committed⟩

/-- Only a `COMMIT` that is granted ends a transaction. -/
theorem InTransaction.step (lz4 : Lz4) {db : Db} (h : InTransaction db a)
    (hcommit : t.asks = .commit → a.connection.verdicts = [.busy]) :
    InTransaction db (t.step lz4 env a).1 := by
  -- `BEGIN` fails in a transaction, and a `COMMIT` that meets a lock does nothing.
  have hbegin : a.stepBegin.2.connection = a.connection.rest := by
    unfold stepBegin Connection.begin
    rw [if_pos h.opened]
  have hend (hverdicts : a.connection.verdicts = [.busy]) :
      a.stepEnd.2.connection = a.connection.rest ∧ a.stepEnd.1 = .busy := by
    unfold stepEnd Connection.commit Connection.perform Connection.verdict
    rw [if_pos h.opened, hverdicts]
    exact ⟨rfl, rfl⟩
  cases t with
  | beginBulkWrites =>
    simp only [Task.step]
    split
    · exact ⟨hbegin ▸ h.opened, hbegin ▸ h.committed⟩
    · exact ⟨hbegin ▸ h.opened, hbegin ▸ h.committed⟩
  | endBulkWrites =>
    obtain ⟨hconnection, hbusy⟩ := hend (hcommit rfl)
    simp only [Task.step, hbusy, if_true]
    exact ⟨hconnection ▸ h.opened, hconnection ▸ h.committed⟩
  | writePtr w point =>
    cases point with
    | begin => exact ⟨hbegin ▸ h.opened, hbegin ▸ h.committed⟩
    | filename =>
      simp only [Task.step]
      split
      · exact h.stepInsertFilename
      · exact h.stepInsertFilename.advance _ _ _ _ _
    | chunk chunkidx chunk rest =>
      have hbound : InTransaction db (a.bindChunk chunk chunkidx) := ⟨h.opened, h.committed⟩
      have hstep := hbound.stepInsertContents
      simp only [Task.step]
      split
      · exact hstep
      · split
        · exact hstep
        · have hreset : InTransaction db
              (a.bindChunk chunk chunkidx).stepInsertContents.2.resetInsertContents :=
            ⟨hstep.opened, hstep.committed⟩
          exact hreset.advance _ _ _ _ _
    | commit =>
      obtain ⟨hconnection, hbusy⟩ := hend (hcommit rfl)
      simp only [Task.step, hbusy, if_true]
      exact ⟨hconnection ▸ h.opened, hconnection ▸ h.committed⟩

/-! ## Waiting -/

/-- A bulk write steps an insert that meets a lock again. -/
theorem step_refused (lz4 : Lz4) (env : SqliteEnv) {point : Point} (hbulk : w.immediate = false)
    (hasks : (Task.writePtr w point).asks = .write) (hverdicts : a.connection.verdicts = [.busy]) :
    (Task.step lz4 env a (.writePtr w point)).2 = .goesOn (.writePtr w point) := by
  cases point with
  | begin => cases hasks
  | filename =>
    have hbusy : a.stepInsertFilename.1 = .busy := by
      unfold stepInsertFilename Connection.perform Connection.verdict
      rw [hverdicts]
      rfl
    simp only [Task.step, hbulk, hbusy, Bool.not_false, and_self, if_true]
  | chunk chunkidx chunk rest =>
    have hbusy : (a.bindChunk chunk chunkidx).stepInsertContents.1 = .busy := by
      have hbound : (a.bindChunk chunk chunkidx).connection.verdicts = [.busy] := hverdicts
      unfold stepInsertContents Connection.perform Connection.verdict
      rw [hbound]
      rfl
    simp only [Task.step, hbulk, hbusy, Bool.false_eq_true, false_and, if_false, if_true]
  | commit => cases hasks

/-- A call that ends with a `COMMIT`, which is stepped again when it meets a lock. -/
def Task.Commits : Task → Prop
  | .beginBulkWrites => False
  | .endBulkWrites => True
  | .writePtr w _ => w.immediate = true

theorem commits_advance (hw : w.immediate = true) (env : SqliteEnv) (chunkidx : ℕ) (rest : List Bytes)
    (status : Status) (a : SqliteArchive) :
    ∃ t, (advance w env chunkidx rest status a).2 = .goesOn t ∧ t.Commits := by
  unfold advance
  split
  · exact ⟨_, rfl, hw⟩
  · rw [if_pos hw]
    exact ⟨_, rfl, hw⟩

/-- Such a call does not return before its `COMMIT` is granted. -/
theorem Task.Commits.step (lz4 : Lz4) (env : SqliteEnv) (ht : t.Commits)
    (hin : a.connection.inTransaction = true)
    (hverdicts : a.connection.verdicts = [if t.asks = .commit then .busy else .ok])
    (hbound : a.insertContentsStmt.Bound)
    (hpath : ∀ w point, t = .writePtr w point → a.insertContentsStmt.bindings.path ≠ none) :
    ∃ t', (t.step lz4 env a).2 = .goesOn t' ∧ t'.Commits := by
  have hend (hbusy : a.connection.verdicts = [.busy]) : a.stepEnd.1 = .busy := by
    unfold stepEnd Connection.commit Connection.perform Connection.verdict
    rw [if_pos hin, hbusy]
    rfl
  cases t with
  | beginBulkWrites => exact ht.elim
  | endBulkWrites =>
    simp only [Task.step, hend hverdicts, if_true]
    exact ⟨_, rfl, trivial⟩
  | writePtr w point =>
    have hw : w.immediate = true := ht
    cases point with
    | begin => exact ⟨_, rfl, hw⟩
    | filename =>
      simp only [Task.step, hw, Bool.not_true, Bool.false_eq_true, false_and, if_false]
      exact commits_advance hw env _ _ _ _
    | chunk chunkidx chunk rest =>
      -- The chunk is inserted, so nothing is thrown.
      have hdone : (a.bindChunk chunk chunkidx).stepInsertContents.1 = .done := by
        obtain ⟨path, contents, idx, heq⟩ := full_bindChunk hbound (hpath w _ rfl) chunk chunkidx
        have hok : (a.bindChunk chunk chunkidx).connection.verdicts = [.ok] := hverdicts
        unfold stepInsertContents Connection.perform Connection.verdict
        rw [hok, heq]
        rfl
      simp only [Task.step, hdone, ne_eq, not_true_eq_false, and_false, if_false, reduceCtorEq]
      exact commits_advance hw env _ _ _ _
    | commit =>
      simp only [Task.step, hend hverdicts, if_true]
      exact ⟨_, rfl, hw⟩

end SqliteArchive

/-! ## Programs -/

/-- What holds of a program and its lock in every reachable state. -/
structure Process.Sound (lock : Lock) (p : Process) : Prop where
  transaction : lock ≠ .unlocked → p.archive.connection.inTransaction = true
  bound : p.archive.insertContentsStmt.Bound
  path : ∀ w point, p.task = some (.writePtr w point) →
    p.archive.insertContentsStmt.bindings.path ≠ none
  immediate : ∀ w point, p.task = some (.writePtr w point) → point = .begin ∨ point = .commit →
    w.immediate = true
  shared : lock = .shared → ∃ path, WriterOp.readBytes path ∈ p.returned.map Prod.fst

/-- What a program asks for. -/
def Process.asks (p : Process) : Locks.Request := p.task.elim .nothing Task.asks

namespace Process

variable {lz4 : Lz4} {p : Process} {t : Task}

/-- A program with no write under way. -/
theorem Sound.of_task {lock : Lock}
    (htransaction : lock ≠ .unlocked → p.archive.connection.inTransaction = true)
    (hbound : p.archive.insertContentsStmt.Bound)
    (htask : ∀ w point, p.task ≠ some (.writePtr w point))
    (hshared : lock = .shared → ∃ path, WriterOp.readBytes path ∈ p.returned.map Prod.fst) :
    p.Sound lock :=
  ⟨htransaction, hbound, fun w point heq => absurd heq (htask w point),
    fun w point heq => absurd heq (htask w point), hshared⟩

/-- A call that returns leaves the calls before it. -/
theorem mem_returned_give {op' : WriterOp} (h : op' ∈ p.returned.map Prod.fst) (op : WriterOp)
    (answer : Answer) : op' ∈ (p.give op answer).returned.map Prod.fst := by
  unfold give
  rw [List.map_append]
  exact List.mem_append_left _ h

/-- Looking at the file leaves the call under way as it is. -/
theorem look_task (p : Process) (file : Db) (lock : Lock) :
    (p.look file lock).task = p.task ∧ (p.look file lock).returned = p.returned := by
  unfold look
  split
  · exact ⟨rfl, rfl⟩
  · exact ⟨rfl, rfl⟩

/-- A program that looks at the file. -/
theorem Sound.look {lock : Lock} (h : p.Sound lock) (file : Db) :
    (p.look file lock).Sound lock := by
  unfold Process.look
  split
  · exact h
  · exact ⟨h.transaction, h.bound, h.path, h.immediate, h.shared⟩

/-- A program behind a statement. -/
theorem Sound.next {lock lock' : Lock} (h : p.Sound lock) (htask : p.task = some t)
    (op : WriterOp) {granted : Bool} {env : SqliteEnv}
    (hverdicts : env.verdicts = [if granted then .ok else .busy])
    (hlock : lock' = .unlocked ∨ (t.asks = .commit → granted = false) ∧ (lock' = lock ∨
      lock'.writes = true ∧ (lock ≠ .unlocked ∨ p.archive.connection.inTransaction = true))) :
    (p.next t op granted (t.step lz4 env (p.archive.meet env))).Sound lock' := by
  have hkeeps : Keeps (t.step lz4 env (p.archive.meet env)) :=
    keeps_step lz4 env h.bound (fun w point heq => h.path w point (heq ▸ htask))
      fun w point heq => h.immediate w point (heq ▸ htask)
  -- A lock ends with the transaction, and a transaction only with a `COMMIT` that is granted.
  have htransaction (hlocked : lock' ≠ .unlocked) :
      (t.step lz4 env (p.archive.meet env)).1.connection.inTransaction = true := by
    obtain ⟨hrefused, hcases⟩ := hlock.resolve_left hlocked
    have hin : p.archive.connection.inTransaction = true := by
      rcases hcases with hsame | ⟨-, hold | hin⟩
      · exact h.transaction (hsame ▸ hlocked)
      · exact h.transaction hold
      · exact hin
    have hopen : InTransaction p.archive.connection.committed (p.archive.meet env) := ⟨hin, rfl⟩
    refine (hopen.step lz4 fun hcommit => ?_).opened
    rw [hrefused hcommit, if_neg Bool.false_ne_true] at hverdicts
    exact hverdicts
  have hshared (hlocked : lock' = .shared) :
      ∃ path, WriterOp.readBytes path ∈ p.returned.map Prod.fst := by
    rcases hlock with hunlocked | ⟨-, hsame | ⟨hwrites, -⟩⟩
    · rw [hunlocked] at hlocked
      cases hlocked
    · exact h.shared (hsame ▸ hlocked)
    · rw [hlocked] at hwrites
      cases hwrites
  rcases hresult : t.step lz4 env (p.archive.meet env) with ⟨a, t' | answer⟩
  · rw [hresult] at hkeeps htransaction
    exact ⟨htransaction, hkeeps.bound,
      fun w point heq => hkeeps.path w point (congrArg _ (Option.some.inj heq)),
      fun w point heq => hkeeps.immediate w point (congrArg _ (Option.some.inj heq)), hshared⟩
  · rw [hresult] at hkeeps htransaction
    refine Sound.of_task htransaction hkeeps.bound (fun _ _ heq => by cases heq) fun hlocked => ?_
    obtain ⟨path, hmem⟩ := hshared hlocked
    exact ⟨path, mem_returned_give hmem op answer⟩

end Process

namespace SharedFile

variable {ι : Type} [Fintype ι] [DecidableEq ι] {lz4 : Lz4} {s : SharedFile ι} {x : Turn ι}
  {p : Process} {t : Task} {op : WriterOp}

/-- There is one writer, and all programs are sound. -/
structure Sound (s : SharedFile ι) : Prop where
  oneWriter : s.locks.OneWriter
  process : ∀ i, (s.process i).Sound (s.locks i)

/-- What a statement does to the lock. Only one that is granted, and no `COMMIT`, gets the lock of the
writer. -/
theorem lockAfter_cases (s : SharedFile ι) (x : Turn ι) (p : Process) (t : Task) :
    s.lockAfter x p t = .unlocked ∨ (t.asks = .commit → s.granted x p t = false) ∧
      (s.lockAfter x p t = s.locks x.process ∨
        (s.lockAfter x p t).writes = true ∧ s.locks.mayWrite x.process = true ∧
          (s.locks x.process ≠ .unlocked ∨ p.archive.connection.inTransaction = true)) := by
  unfold lockAfter
  dsimp only
  split
  · -- An insert is granted, and it keeps the lock if it is in a transaction.
    next hasks hgranted =>
    have hno : t.asks ≠ .commit := by
      rw [hasks]
      exact Locks.Request.noConfusion
    refine Or.inr ⟨fun hcommit => absurd hcommit hno, ?_⟩
    have hmay : s.locks.mayWrite x.process = true := by
      unfold granted at hgranted
      rw [Bool.and_eq_true, hasks] at hgranted
      exact hgranted.1
    split
    · next hin => exact Or.inr ⟨Lock.writes_write _ _, hmay, Or.inr hin⟩
    · exact Or.inl rfl
  · exact Or.inl rfl
  · next hasks hgranted =>
    refine Or.inr ⟨fun _ => hgranted, ?_⟩
    split
    · exact Or.inl rfl
    · -- The writer keeps others from beginning to read.
      cases hwrites : (s.locks x.process).writes with
      | false => exact Or.inl (by rw [Lock.wait, hwrites, if_neg Bool.false_ne_true])
      | true =>
        refine Or.inr ⟨by rw [Lock.writes_wait, hwrites], Locks.mayWrite_iff.mpr (Or.inl hwrites),
          Or.inl fun hunlocked => ?_⟩
        rw [hunlocked] at hwrites
        cases hwrites
  · next hcommitted _ =>
    exact Or.inr ⟨fun hcommit => Bool.eq_false_of_not_eq_true (hcommitted hcommit), Or.inl rfl⟩

omit [Fintype ι] in
/-- A program changes, and its lock with it. -/
theorem Sound.update (h : Sound s) {i : ι} {lock : Lock} {q : Process} (hq : q.Sound lock)
    (hlocks : Locks.OneWriter (Function.update s.locks i lock)) (file : Db) :
    Sound ⟨file, Function.update s.locks i lock, Function.update s.process i q⟩ := by
  refine ⟨hlocks, fun j => ?_⟩
  show (Function.update s.process i q j).Sound (Function.update s.locks i lock j)
  rcases eq_or_ne j i with rfl | hj
  · rw [Function.update_self, Function.update_self]
    exact hq
  · rw [Function.update_of_ne hj, Function.update_of_ne hj]
    exact h.process j

omit [Fintype ι] in
/-- A program changes. -/
theorem Sound.updateProcess (h : Sound s) {i : ι} {q : Process} (hq : q.Sound (s.locks i)) :
    Sound { s with process := Function.update s.process i q } := by
  have hnext := h.update (i := i) hq (by rw [Function.update_eq_self]; exact h.oneWriter) s.file
  rwa [Function.update_eq_self] at hnext

/-- There is still one writer behind a statement. -/
theorem oneWriter_lockAfter (h : s.locks.OneWriter) (x : Turn ι) (p : Process) (t : Task) :
    Locks.OneWriter (Function.update s.locks x.process (s.lockAfter x p t)) := by
  rcases lockAfter_cases s x p t with hunlocked | ⟨-, hsame | ⟨-, hmay, -⟩⟩
  · rw [hunlocked]
    exact h.same Bool.noConfusion
  · rw [hsame, Function.update_eq_self]
    exact h
  · exact h.write hmay _

theorem Sound.statement (h : Sound s) (hp : p.Sound (s.locks x.process)) (htask : p.task = some t) :
    Sound (s.statement lz4 x p t op).1 := by
  unfold SharedFile.statement
  refine h.update (hp.next htask op rfl ?_) (oneWriter_lockAfter h.oneWriter x p t) _
  rcases lockAfter_cases s x p t with hunlocked | ⟨hrefused, hsame | ⟨hwrites, -, hin⟩⟩
  · exact Or.inl hunlocked
  · exact Or.inr ⟨hrefused, Or.inl hsame⟩
  · exact Or.inr ⟨hrefused, Or.inr ⟨hwrites, hin⟩⟩

omit [Fintype ι] in
theorem Sound.startWrite (h : Sound s) (hp : p.Sound (s.locks x.process)) (w : Write) :
    Sound (s.startWrite lz4 x p op w).1 := by
  unfold SharedFile.startWrite
  split
  · refine h.updateProcess (.of_task hp.transaction hp.bound (fun _ _ heq => by cases heq)
      fun hlocked => ?_)
    obtain ⟨path, hmem⟩ := hp.shared hlocked
    exact ⟨path, Process.mem_returned_give hmem op _⟩
  · have hbindings : (p.archive.bindRecord x.memory w.path (encode lz4 w)).insertContentsStmt.Bound ∧
        (p.archive.bindRecord x.memory w.path (encode lz4 w)).insertContentsStmt.bindings.path ≠ none := by
      unfold SqliteArchive.bindRecord Statement.bind
      dsimp only
      cases hstepped : p.archive.insertContentsStmt.stepped with
      | true =>
        obtain ⟨path, contents, chunkidx, heq⟩ := hp.bound hstepped
        rw [if_pos rfl, heq]
        exact ⟨fun _ => ⟨_, _, _, rfl⟩, Option.some_ne_none _⟩
      | false =>
        rw [if_neg Bool.false_ne_true]
        exact ⟨fun hno => Bool.noConfusion hno, Option.some_ne_none _⟩
    refine h.updateProcess ⟨hp.transaction, hbindings.1, fun _ _ _ => hbindings.2, ?_, hp.shared⟩
    intro w' point heq hpoint
    cases heq
    cases hw : w.immediate with
    | true => rfl
    | false =>
      rw [hw, if_neg Bool.false_ne_true] at hpoint
      rcases hpoint with hpoint | hpoint <;> cases hpoint

theorem Sound.call (h : Sound s) (hp : p.Sound (s.locks x.process)) : Sound (s.call lz4 x p op).1 := by
  cases op with
  | construct id =>
    exact h.updateProcess (.of_task hp.transaction hp.bound (fun _ _ heq => by cases heq) hp.shared)
  | destroy id =>
    exact h.updateProcess (.of_task hp.transaction hp.bound (fun _ _ heq => by cases heq) hp.shared)
  | bulkWrite id kind path contents mode => exact h.startWrite hp _
  | write kind path contents mode => exact h.startWrite hp _
  | readBytes path =>
    obtain ⟨verdicts, select, heq⟩ := read_frame lz4 p.archive path (env x (s.locks.mayRead x.process))
    unfold SharedFile.call
    dsimp only
    rw [heq]
    refine h.update (.of_task (fun hlocked => ?_) ?_ (fun _ _ => ?_) fun _ => ⟨path, ?_⟩) ?_ s.file
    · split at hlocked
      · next hand => exact (Bool.and_eq_true_iff.mp hand).2
      · exact hp.transaction hlocked
    · exact hp.bound
    · exact (Option.some_ne_none _).symm
    · unfold Process.give
      rw [List.map_append]
      exact List.mem_append_right _ (List.mem_singleton_self _)
    · refine h.oneWriter.same fun hwrites => ?_
      split at hwrites
      · rwa [Lock.writes_read] at hwrites
      · exact hwrites

theorem Sound.turn (lz4 : Lz4) (h : Sound s) (x : Turn ι) : Sound (s.turn lz4 x).1 := by
  have hp := (h.process x.process).look s.file
  unfold SharedFile.turn
  dsimp only
  split
  · next htask _ => exact h.statement hp htask
  · exact h.call hp
  · exact h

omit [Fintype ι] [DecidableEq ι] in
theorem sound_start (db : Db) (programs : ι → List WriterOp) : Sound (start db programs) :=
  ⟨Locks.oneWriter_unlocked, fun _ => .of_task (fun hno => absurd rfl hno)
    (fun hno => Bool.noConfusion hno)
    (fun _ _ heq => by cases heq) fun hno => Lock.noConfusion hno⟩

/-- Every reachable state is sound. -/
theorem Sound.exec (lz4 : Lz4) (h : Sound s) (turns : List (Turn ι)) :
    Sound (exec (SharedFile.turn lz4) s turns) :=
  exec_along (C := fun _ _ => True) (fun _ x _ hs => hs.turn lz4 x) h
    (along_of_forall (fun _ _ _ => trivial) s)

/-! ## Two programs -/

/-- Two programs wait for each other: one that has read is in front of an insert of a bulk write, and
one that has written does not return before its `COMMIT`. -/
structure Waits (s : SharedFile ι) (i j : ι) : Prop where
  shared : s.locks i = .shared
  writes : (s.locks j).writes = true
  bulk : ∃ w point, (s.process i).task = some (.writePtr w point) ∧ w.immediate = false ∧
    (Task.writePtr w point).asks = .write
  commits : ∃ t, (s.process j).task = some t ∧ t.Commits

omit [Fintype ι] [DecidableEq ι] in
theorem Waits.ne {i j : ι} (h : s.Waits i j) : i ≠ j := by
  rintro rfl
  have hwrites := h.writes
  rw [h.shared] at hwrites
  cases hwrites

/-- A call that begins concerns one program, and takes nothing back. -/
theorem exists_call_eq (lz4 : Lz4) (s : SharedFile ι) (x : Turn ι) (p : Process) (op : WriterOp) :
    ∃ lock q, (s.call lz4 x p op).1 = ⟨s.file, Function.update s.locks x.process lock,
      Function.update s.process x.process q⟩ ∧ p.returned <+: q.returned := by
  -- Only a read changes a lock.
  have hwrite (w : Write) : ∃ lock q, (s.startWrite lz4 x p op w).1 = ⟨s.file,
      Function.update s.locks x.process lock, Function.update s.process x.process q⟩ ∧
        p.returned <+: q.returned := by
    unfold SharedFile.startWrite
    split
    · exact ⟨s.locks x.process, _, by rw [Function.update_eq_self], List.prefix_append _ _⟩
    · refine ⟨s.locks x.process, { p with archive := p.archive.bindRecord x.memory w.path (encode lz4 w) }.goOn
        (.writePtr w (if w.immediate then .begin else .filename)), ?_, List.prefix_rfl⟩
      rw [Function.update_eq_self]
  cases op with
  | construct id =>
    refine ⟨s.locks x.process, p.goOn .beginBulkWrites, ?_, List.prefix_rfl⟩
    rw [Function.update_eq_self]
    rfl
  | destroy id =>
    refine ⟨s.locks x.process, p.goOn .endBulkWrites, ?_, List.prefix_rfl⟩
    rw [Function.update_eq_self]
    rfl
  | bulkWrite id kind path contents mode => exact hwrite _
  | write kind path contents mode => exact hwrite _
  | readBytes path => exact ⟨_, _, rfl, List.prefix_append _ _⟩

/-- A turn leaves the other programs alone. -/
theorem turn_of_ne (lz4 : Lz4) (s : SharedFile ι) (x : Turn ι) {k : ι} (hk : k ≠ x.process) :
    (s.turn lz4 x).1.locks k = s.locks k ∧ (s.turn lz4 x).1.process k = s.process k := by
  unfold SharedFile.turn
  dsimp only
  split
  · exact ⟨Function.update_of_ne hk _ _, Function.update_of_ne hk _ _⟩
  · obtain ⟨lock, q, heq, -⟩ := exists_call_eq lz4 s x
      ((s.process x.process).look s.file (s.locks x.process)) ‹WriterOp›
    rw [heq]
    exact ⟨Function.update_of_ne hk _ _, Function.update_of_ne hk _ _⟩
  · exact ⟨rfl, rfl⟩

/-- A program with a call under way steps its next statement. -/
theorem turn_of_task (lz4 : Lz4) (s : SharedFile ι) (x : Turn ι)
    (hp : (s.process x.process).look s.file (s.locks x.process) = p) (htask : p.task = some t) :
    (s.turn lz4 x).1 = s ∨ ∃ op, (s.turn lz4 x).1 = (s.statement lz4 x p t op).1 := by
  cases hcalls : p.calls with
  | nil => exact Or.inl (by simp only [SharedFile.turn, hp, htask, hcalls])
  | cons op calls => exact Or.inr ⟨op, by simp only [SharedFile.turn, hp, htask, hcalls]⟩

/-- A statement behind which the call goes on. -/
theorem statement_of_goesOn (op : WriterOp) {t' : Task}
    (hgoes : (t.step lz4 (env x (s.granted x p t)) (p.archive.meet (env x (s.granted x p t)))).2 =
      .goesOn t') :
    (s.statement lz4 x p t op).1.locks x.process = s.lockAfter x p t ∧
      ((s.statement lz4 x p t op).1.process x.process).task = some t' ∧
      ((s.statement lz4 x p t op).1.process x.process).returned = p.returned := by
  unfold SharedFile.statement
  dsimp only
  rw [Function.update_self, Function.update_self]
  refine ⟨rfl, ?_⟩
  rcases hresult : t.step lz4 (env x (s.granted x p t)) (p.archive.meet (env x (s.granted x p t)))
    with ⟨a, t'' | answer⟩
  · rw [hresult] at hgoes
    cases hgoes
    exact ⟨rfl, rfl⟩
  · rw [hresult] at hgoes
    cases hgoes

/-- The one that waits to insert goes on waiting. -/
theorem Waits.turn_reader (lz4 : Lz4) {i j : ι} (h : s.Waits i j) (hi : x.process = i) :
    (s.turn lz4 x).1.Waits i j ∧
      ((s.turn lz4 x).1.process i).returned = (s.process i).returned := by
  obtain ⟨w, point, htask, hbulk, hasks⟩ := h.bulk
  subst hi
  have hj := turn_of_ne lz4 s x h.ne.symm
  have hlook := (s.process x.process).look_task s.file (s.locks x.process)
  rw [htask] at hlook
  generalize hp : (s.process x.process).look s.file (s.locks x.process) = p at hlook
  -- The writer is another program.
  have hrefused : s.granted x p (.writePtr w point) = false := by
    have hmay : s.locks.mayWrite x.process = false :=
      Locks.mayWrite_eq_false (by rw [h.shared]; rfl) h.writes
    unfold granted
    rw [hasks, Locks.grants, hmay, Bool.false_and]
  rcases turn_of_task lz4 s x hp hlook.1 with hsame | ⟨op, hturn⟩
  · rw [hsame]
    exact ⟨h, rfl⟩
  · have hgoes := step_refused (a := p.archive.meet (env x (s.granted x p (.writePtr w point)))) lz4
      (env x (s.granted x p (.writePtr w point))) hbulk hasks
      (by rw [hrefused]; rfl)
    obtain ⟨hlock, hnext, hreturned⟩ := statement_of_goesOn op hgoes
    rw [← hturn] at hlock hnext hreturned
    refine ⟨⟨?_, ?_, ⟨w, point, hnext, hbulk, hasks⟩, ?_⟩, hreturned.trans hlook.2⟩
    · rw [hlock, lockAfter, hasks, hrefused]
      exact h.shared
    · rw [hj.1]
      exact h.writes
    · rw [hj.2]
      exact h.commits

/-- The writer repeats its `COMMIT`, with the statements before it if the write is immediate. -/
theorem Waits.turn_writer (lz4 : Lz4) {i j : ι} (h : s.Waits i j) (hs : Sound s) (hj : x.process = j) :
    (s.turn lz4 x).1.Waits i j ∧
      ((s.turn lz4 x).1.process j).returned = (s.process j).returned := by
  obtain ⟨t, htask, hcommits⟩ := h.commits
  subst hj
  have hi := turn_of_ne lz4 s x h.ne
  have hsound := (hs.process x.process).look s.file
  have hlook := (s.process x.process).look_task s.file (s.locks x.process)
  rw [htask] at hlook
  generalize hp : (s.process x.process).look s.file (s.locks x.process) = p at hlook hsound
  have hlocked : s.locks x.process ≠ .unlocked := by
    intro hunlocked
    have hwrites := h.writes
    rw [hunlocked] at hwrites
    cases hwrites
  have hin : p.archive.connection.inTransaction = true := hsound.transaction hlocked
  have hmay : s.locks.mayCommit x.process = false :=
    Locks.mayCommit_eq_false h.ne (by rw [h.shared]; exact Lock.noConfusion) h.writes
  -- It may insert what it wants, but not commit.
  have hgranted : s.granted x p t = if t.asks = .commit then false else true := by
    have hmayWrite : s.locks.mayWrite x.process = true := Locks.mayWrite_iff.mpr (Or.inl h.writes)
    unfold granted
    cases hasks : t.asks with
    | nothing => rfl
    | read =>
      rw [Locks.grants, Locks.mayRead_of_ne hlocked]
      rfl
    | write =>
      rw [Locks.grants, hmayWrite, hin]
      rfl
    | commit =>
      rw [Locks.grants, hmay]
      rfl
  -- So it keeps its lock.
  have hlock : (s.lockAfter x p t).writes = true := by
    unfold lockAfter
    dsimp only
    split
    · rw [if_pos hin]
      exact Lock.writes_write _ _
    · next hasks hcommitted =>
      rw [hgranted, if_pos hasks] at hcommitted
      cases hcommitted
    · split
      · exact h.writes
      · rw [Lock.writes_wait]
        exact h.writes
    · exact h.writes
  rcases turn_of_task lz4 s x hp hlook.1 with hsame | ⟨op, hturn⟩
  · rw [hsame]
    exact ⟨h, rfl⟩
  · obtain ⟨t', hgoes, hcommits'⟩ := hcommits.step (a := p.archive.meet (env x (s.granted x p t))) lz4
      (env x (s.granted x p t)) hin
      (by
        rw [hgranted]
        cases hasks : t.asks <;> rfl)
      hsound.bound fun w point heq => hsound.path w point (heq ▸ hlook.1)
    obtain ⟨hlock', hnext, hreturned⟩ := statement_of_goesOn op hgoes
    rw [← hturn] at hlock' hnext hreturned
    refine ⟨⟨?_, ?_, ?_, ⟨t', hnext, hcommits'⟩⟩, hreturned.trans hlook.2⟩
    · rw [hi.1]
      exact h.shared
    · rw [hlock']
      exact hlock
    · rw [hi.2]
      exact h.bulk

/-- Whoever takes a turn, both go on waiting. -/
theorem Waits.turn (lz4 : Lz4) {i j : ι} (h : s.Waits i j) (hs : Sound s) (x : Turn ι) :
    (s.turn lz4 x).1.Waits i j ∧ ∀ k, k = i ∨ k = j →
      ((s.turn lz4 x).1.process k).returned = (s.process k).returned := by
  have hother {k : ι} (hk : k ≠ x.process) :
      ((s.turn lz4 x).1.process k).returned = (s.process k).returned := by
    rw [(turn_of_ne lz4 s x hk).2]
  -- Each of the two does nothing in its turns that would let the other one go on.
  by_cases hi : x.process = i
  · obtain ⟨hnext, hreturned⟩ := h.turn_reader lz4 hi
    refine ⟨hnext, fun k hk => ?_⟩
    rcases hk with rfl | rfl
    · exact hreturned
    · exact hother fun heq => h.ne (hi ▸ heq.symm)
  · by_cases hj : x.process = j
    · obtain ⟨hnext, hreturned⟩ := h.turn_writer lz4 hs hj
      refine ⟨hnext, fun k hk => ?_⟩
      rcases hk with rfl | rfl
      · exact hother fun heq => hi heq.symm
      · exact hreturned
    · -- Neither of them has the turn.
      obtain ⟨hlocki, hpi⟩ := turn_of_ne lz4 s x fun heq => hi heq.symm
      obtain ⟨hlockj, hpj⟩ := turn_of_ne lz4 s x fun heq => hj heq.symm
      refine ⟨⟨hlocki ▸ h.shared, hlockj ▸ h.writes, hpi ▸ h.bulk, hpj ▸ h.commits⟩, fun k hk => ?_⟩
      rcases hk with rfl | rfl
      · exact hother fun heq => hi heq.symm
      · exact hother fun heq => hj heq.symm

/-- Neither call returns. -/
theorem Waits.exec (lz4 : Lz4) {i j : ι} (h : s.Waits i j) (hs : Sound s) (turns : List (Turn ι)) :
    ∀ k, k = i ∨ k = j →
      ((exec (SharedFile.turn lz4) s turns).process k).returned = (s.process k).returned := by
  induction turns generalizing s with
  | nil => exact fun _ _ => rfl
  | cons x turns ih =>
    obtain ⟨hnext, hreturned⟩ := h.turn lz4 hs x
    intro k hk
    rw [exec_cons, ih hnext (hs.turn lz4 x) k hk, hreturned k hk]

/-- When every program that holds a lock meets one, two of them wait for each other, if the one that has
read is in a bulk write. -/
theorem Sound.exists_waits (hs : Sound s) (hheld : ∃ i, s.locks i ≠ .unlocked)
    (hrefused : ∀ i, s.locks i ≠ .unlocked → s.locks.grants i (s.process i).asks = false) :
    ∃ i j, Locks.Upgrade s.locks (fun i => (s.process i).asks) i j ∧
      ∀ w point, (s.process i).task = some (.writePtr w point) → w.immediate = false → s.Waits i j := by
  obtain ⟨i, j, hup⟩ := Locks.exists_upgrade hs.oneWriter hrefused hheld
  refine ⟨i, j, hup, fun w point htask hbulk => ?_⟩
  -- What the two ask for tells where their calls stand.
  have hwrite : (Task.writePtr w point).asks = .write := by
    have hasks : (s.process i).asks = .write := hup.write
    rwa [Process.asks, htask, Option.elim_some] at hasks
  have hcommit : (s.process j).asks = .commit := hup.commit
  rcases htaskj : (s.process j).task with - | t
  · rw [Process.asks, htaskj, Option.elim_none] at hcommit
    cases hcommit
  · rw [Process.asks, htaskj, Option.elim_some] at hcommit
    -- Only a call that goes on until it has committed is in front of a `COMMIT`.
    have hcommits : t.Commits := by
      rcases t with - | - | ⟨w', point'⟩
      · cases hcommit
      · exact trivial
      · cases point' with
        | begin => cases hcommit
        | filename => cases hcommit
        | chunk => cases hcommit
        | commit => exact (hs.process j).immediate w' .commit htaskj (Or.inr rfl)
    exact ⟨hup.shared, hup.writes, ⟨w, point, htask, hbulk, hwrite⟩, t, htaskj, hcommits⟩

/-- Programs hold locks, and each of them meets a lock at its next statement. Then there are two that
wait for each other, of which one has read, and if that one is in a bulk write, neither call ever
returns. -/
theorem stuck_forever (lz4 : Lz4) (db : Db) (programs : ι → List WriterOp) (turns : List (Turn ι))
    (hheld : ∃ i, (exec (SharedFile.turn lz4) (start db programs) turns).locks i ≠ .unlocked)
    (hrefused : ∀ i, (exec (SharedFile.turn lz4) (start db programs) turns).locks i ≠ .unlocked →
      (exec (SharedFile.turn lz4) (start db programs) turns).locks.grants i
        ((exec (SharedFile.turn lz4) (start db programs) turns).process i).asks = false) :
    let s := exec (SharedFile.turn lz4) (start db programs) turns
    ∃ i j, Locks.Upgrade s.locks (fun i => (s.process i).asks) i j ∧
      (∃ path, WriterOp.readBytes path ∈ (s.process i).returned.map Prod.fst) ∧
      ∀ w point, (s.process i).task = some (.writePtr w point) → w.immediate = false →
        ∀ later k, k = i ∨ k = j →
          ((exec (SharedFile.turn lz4) s later).process k).returned = (s.process k).returned := by
  have hs := (sound_start db programs).exec lz4 turns
  obtain ⟨i, j, hup, hwaits⟩ := hs.exists_waits hheld hrefused
  refine ⟨i, j, hup, (hs.process i).shared hup.shared, fun w point htask hbulk later => ?_⟩
  exact (hwaits w point htask hbulk).exec lz4 hs later

end SharedFile

/-- A program that writes in bulk, and one that reads before it does. -/
def twoWriters : Fin 2 → List WriterOp := ![
  [.construct 0, .bulkWrite 0 .ptr (lit "a") [1] .noCompress, .destroy 0],
  [.construct 0, .readBytes (lit "a"), .bulkWrite 0 .ptr (lit "b") [2] .noCompress, .destroy 0]]

/-- The second one goes as far as its insert, and then the first one as far as its `COMMIT`. -/
def twoTurns : List (Turn (Fin 2)) :=
  ([1, 1, 1, 1, 0, 0, 0, 0, 0, 0] : List (Fin 2)).map fun i => { process := i }

/-- The file behind these turns. -/
def twoStuck : SharedFile (Fin 2) :=
  exec (SharedFile.turn literalLz4) (SharedFile.start .empty twoWriters) twoTurns

/-- Both wait, and neither call returns. -/
theorem two_writers_stuck : (twoStuck.process 1).asks = .write ∧ (twoStuck.process 0).asks = .commit ∧
    ∀ later k, ((exec (SharedFile.turn literalLz4) twoStuck later).process k).returned.length = 2 := by
  -- Each program has returned from two calls, and stands in its third one.
  have hlengths : ∀ k, (twoStuck.process k).returned.length = 2 := by decide +kernel
  obtain ⟨i, j, hup, -, hforever⟩ := SharedFile.stuck_forever literalLz4 .empty twoWriters twoTurns
    ⟨0, by decide +kernel⟩ (by decide +kernel)
  obtain rfl : i = 1 :=
    (by decide +kernel : ∀ i, twoStuck.locks i = .shared → i = 1) i hup.shared
  obtain rfl : j = 0 :=
    (by decide +kernel : ∀ j, (twoStuck.locks j).writes = true → j = 0) j hup.writes
  refine ⟨hup.write, hup.commit, fun later k => ?_⟩
  have hk : k = 1 ∨ k = 0 := by
    revert k
    decide
  have hsame := hforever ⟨lit "b", [2], .noCompress, false⟩ .filename (by decide +kernel) rfl later k hk
  exact (congrArg List.length hsame).trans (hlengths k)

end Libgetar
