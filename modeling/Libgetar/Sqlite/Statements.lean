import Libgetar.Sqlite.Refine

/-!
# One statement at a time

A call of the sqlite backend as a sequence of calls to `sqlite3_step`, between which other programs
can use the file. A `Task` is a call under way, in front of a statement, and `Task.step` steps that
statement and goes on to the next one. Stepped to its end, a call is the function of the archive
(`ends_writePtr`, `ends_beginBulkWrites`, `ends_endBulkWrites`), whatever its statements meet.
-/

namespace Libgetar

open Lib Sqlite

namespace SqliteArchive

/-! ## Tasks -/

/-- The statement that a write is in front of. -/
inductive Point where
  | begin
  | filename
  /-- A chunk with its index, and the chunks behind it. -/
  | chunk (chunkidx : ℕ) (contents : Bytes) (rest : List Bytes)
  | commit
deriving DecidableEq

/-- A call that steps statements. -/
inductive Task where
  | beginBulkWrites
  | endBulkWrites
  | writePtr (w : Write) (point : Point)
deriving DecidableEq

/-- What comes of a statement. -/
inductive Progress where
  | goesOn (t : Task)
  | returns (answer : Answer)

/-- A call is over. -/
def returned (result : SqliteArchive × Answer) : SqliteArchive × Progress :=
  (result.1, .returns result.2)

/-- A write goes on with the chunks that are left, with the last status. -/
def advance (w : Write) (env : SqliteEnv) (chunkidx : ℕ) (rest : List Bytes) (status : Status)
    (a : SqliteArchive) : SqliteArchive × Progress :=
  match rest with
  | chunk :: rest => (a, .goesOn (.writePtr w (.chunk chunkidx chunk rest)))
  | [] =>
    if w.immediate then (a, .goesOn (.writePtr w .commit))
    else returned (finishWrite w.path env status a)

/-- The next statement of a call. When the insert of a chunk is repeated, its parameters are bound
already and are not bound again. -/
def Task.step (lz4 : Lz4) (env : SqliteEnv) (a : SqliteArchive) : Task → SqliteArchive × Progress
  | .beginBulkWrites =>
    let (status, a) := a.stepBegin
    if status = .busy then (a, .goesOn .beginBulkWrites)
    else ({ a with beginStmt := a.beginStmt.reset }, .returns .done)
  | .endBulkWrites =>
    let (status, a) := a.stepEnd
    if status = .busy then (a, .goesOn .endBulkWrites)
    else ({ a with endStmt := a.endStmt.reset }, .returns .done)
  | .writePtr w .begin => (a.stepBegin.2, .goesOn (.writePtr w .filename))
  | .writePtr w .filename =>
    let (status, a) := a.stepInsertFilename
    if !w.immediate ∧ status = .busy then (a, .goesOn (.writePtr w .filename))
    else advance w env 0 (encode lz4 w).chunks status a
  | .writePtr w (.chunk chunkidx chunk rest) =>
    let (status, a) := (a.bindChunk chunk chunkidx).stepInsertContents
    if w.immediate ∧ status ≠ .done then
      (a, .returns (.threw (lit "Couldn't insert chunk in sqlite database: " ++ env.errmsg)))
    else if status = .busy then (a, .goesOn (.writePtr w (.chunk chunkidx chunk rest)))
    else advance w env (chunkidx + 1) rest status a.resetInsertContents
  | .writePtr w .commit =>
    let (status, a) := a.stepEnd
    if status = .busy then (a, .goesOn (.writePtr w .begin))
    else returned (finishWrite w.path env status a)

/-- A call that is stepped to its end, with nothing between its statements. -/
def Task.runAlone (lz4 : Lz4) (env : SqliteEnv) :
    ℕ → SqliteArchive → Task → Option (SqliteArchive × Answer)
  | 0, _, _ => none
  | fuel + 1, a, t =>
    match t.step lz4 env a with
    | (a, .goesOn t) => runAlone lz4 env fuel a t
    | (a, .returns answer) => some (a, answer)

/-! ## Calls that end -/

/-- A call ends with a result. -/
def Ends (lz4 : Lz4) (env : SqliteEnv) (result : SqliteArchive × Answer) :
    SqliteArchive × Progress → Prop
  | (a, .goesOn t) => ∃ fuel, t.runAlone lz4 env fuel a = some result
  | (a, .returns answer) => (a, answer) = result

variable {lz4 : Lz4} {env : SqliteEnv} {result : SqliteArchive × Answer} {a : SqliteArchive} {t : Task}
  {w : Write}

/-- A call ends as it does behind its next statement. -/
theorem Ends.of_step (h : Ends lz4 env result (t.step lz4 env a)) :
    Ends lz4 env result (a, .goesOn t) := by
  rcases hstep : t.step lz4 env a with ⟨b, t' | answer⟩
  · rw [hstep] at h
    obtain ⟨fuel, hrun⟩ := h
    refine ⟨fuel + 1, ?_⟩
    simp only [Task.runAlone, hstep]
    exact hrun
  · rw [hstep] at h
    refine ⟨1, ?_⟩
    simp only [Task.runAlone, hstep]
    exact congrArg some h

/-- A call that repeats a step while the file is locked. -/
theorem ends_repeatWhileBusy (lz4 : Lz4) (env : SqliteEnv) (t : Task)
    {step : SqliteArchive → Status × SqliteArchive} (hstep : Consumes step)
    (after : Status × SqliteArchive → SqliteArchive × Answer)
    (hbusy : ∀ a, (step a).1 = .busy → t.step lz4 env a = ((step a).2, .goesOn t))
    (hfree : ∀ a, (step a).1 ≠ .busy → Ends lz4 env (after (step a)) (t.step lz4 env a)) (fuel : ℕ) :
    ∀ a : SqliteArchive, a.connection.verdicts.length < fuel →
      Ends lz4 env (after (repeatWhileBusy step fuel a)) (a, .goesOn t) := by
  induction fuel with
  | zero => exact fun a h => absurd h (Nat.not_lt_zero _)
  | succ fuel ih =>
    intro a h
    refine Ends.of_step ?_
    unfold repeatWhileBusy
    dsimp only
    split
    · next hlocked =>
      have hpos := List.length_pos_of_ne_nil (hstep.busy a hlocked)
      rw [hbusy a hlocked]
      apply ih
      rw [hstep.verdicts a, List.length_tail]
      omega
    · next hdone => exact hfree a hdone

/-- `beginBulkWrites`. -/
theorem ends_beginBulkWrites (lz4 : Lz4) (a : SqliteArchive) (env : SqliteEnv) :
    Ends lz4 env (a.beginBulkWrites env, .done) (a.meet env, .goesOn .beginBulkWrites) := by
  refine ends_repeatWhileBusy lz4 env _ consumes_stepBegin
    (fun x => ({ x.2 with beginStmt := x.2.beginStmt.reset }, .done))
    (fun a hbusy => ?_) (fun a hfree => ?_) _ _ (Nat.lt_succ_self _)
  · simp only [Task.step, hbusy, if_true]
  · simp only [Task.step, if_neg hfree]
    rfl

/-- `endBulkWrites`. -/
theorem ends_endBulkWrites (lz4 : Lz4) (a : SqliteArchive) (env : SqliteEnv) :
    Ends lz4 env (a.endBulkWrites env, .done) (a.meet env, .goesOn .endBulkWrites) := by
  refine ends_repeatWhileBusy lz4 env _ consumes_stepEnd
    (fun x => ({ x.2 with endStmt := x.2.endStmt.reset }, .done))
    (fun a hbusy => ?_) (fun a hfree => ?_) _ _ (Nat.lt_succ_self _)
  · simp only [Task.step, hbusy, if_true]
  · simp only [Task.step, if_neg hfree]
    rfl

/-! ## Bulk writes -/

/-- The insert of a chunk, with its parameters. -/
def insertChunk (chunk : Bytes) (chunkidx : ℕ) (a : SqliteArchive) : Status × SqliteArchive :=
  (a.bindChunk chunk chunkidx).stepInsertContents

theorem consumes_insertChunk (chunk : Bytes) (chunkidx : ℕ) : Consumes (insertChunk chunk chunkidx) :=
  ⟨fun a => consumes_stepInsertContents.verdicts (a.bindChunk chunk chunkidx),
    fun a => consumes_stepInsertContents.busy (a.bindChunk chunk chunkidx)⟩

/-- The parameters are bound once. -/
theorem bindChunk_stepInsertContents (a : SqliteArchive) (chunk : Bytes) (chunkidx : ℕ) :
    a.stepInsertContents.2.bindChunk chunk chunkidx = a.stepInsertContents.2 := rfl

/-- So it makes no difference to bind them before every step. -/
theorem repeatWhileBusy_insertChunk (chunk : Bytes) (chunkidx : ℕ) (fuel : ℕ) : ∀ a : SqliteArchive,
    repeatWhileBusy stepInsertContents (fuel + 1) (a.bindChunk chunk chunkidx) =
      repeatWhileBusy (insertChunk chunk chunkidx) (fuel + 1) a := by
  induction fuel with
  | zero => exact fun a => rfl
  | succ fuel ih =>
    intro a
    have hbound := ih (insertChunk chunk chunkidx a).2
    rw [insertChunk, bindChunk_stepInsertContents] at hbound
    rw [repeatWhileBusy, repeatWhileBusy, insertChunk]
    dsimp only
    rw [hbound]

/-- The chunks of a bulk write. -/
theorem ends_insertChunksBulk (hw : w.immediate = false) (chunks : List Bytes) :
    ∀ (chunkidx : ℕ) (status : Status) (a : SqliteArchive),
      Ends lz4 env
        (finishWrite w.path env (insertChunksBulk chunkidx chunks status a).1
          (insertChunksBulk chunkidx chunks status a).2)
        (advance w env chunkidx chunks status a) := by
  induction chunks with
  | nil =>
    intro chunkidx status a
    rw [advance, hw, if_neg Bool.false_ne_true]
    rfl
  | cons chunk rest ih =>
    intro chunkidx status a
    have hloop := ends_repeatWhileBusy lz4 env (.writePtr w (.chunk chunkidx chunk rest))
      (consumes_insertChunk chunk chunkidx)
      (fun x => finishWrite w.path env
        (insertChunksBulk (chunkidx + 1) rest x.1 x.2.resetInsertContents).1
        (insertChunksBulk (chunkidx + 1) rest x.1 x.2.resetInsertContents).2)
      ?_ ?_ a.fuel a (Nat.lt_succ_self _)
    · rw [fuel, ← repeatWhileBusy_insertChunk] at hloop
      exact hloop
    · intro a hbusy
      rw [insertChunk] at hbusy
      simp only [Task.step, hw, hbusy, if_true, Bool.false_eq_true, false_and, if_false]
      rfl
    · intro a hfree
      rw [insertChunk] at hfree
      simp only [Task.step, hw, if_neg hfree, Bool.false_eq_true, false_and, if_false]
      exact ih (chunkidx + 1) _ _

/-- A bulk write. -/
theorem ends_bulk (hw : w.immediate = false) (a : SqliteArchive) :
    Ends lz4 env
      (finishWrite w.path env
        (insertChunksBulk 0 (encode lz4 w).chunks (repeatWhileBusy stepInsertFilename a.fuel a).1
          (repeatWhileBusy stepInsertFilename a.fuel a).2).1
        (insertChunksBulk 0 (encode lz4 w).chunks (repeatWhileBusy stepInsertFilename a.fuel a).1
          (repeatWhileBusy stepInsertFilename a.fuel a).2).2)
      (a, .goesOn (.writePtr w .filename)) := by
  refine ends_repeatWhileBusy lz4 env _ consumes_stepInsertFilename
    (fun x => finishWrite w.path env
      (insertChunksBulk 0 (encode lz4 w).chunks x.1 x.2).1
      (insertChunksBulk 0 (encode lz4 w).chunks x.1 x.2).2)
    (fun a hbusy => ?_) (fun a hfree => ?_) _ _ (Nat.lt_succ_self _)
  · simp only [Task.step, hw, hbusy, Bool.not_false, and_self, if_true]
  · simp only [Task.step, hw, hfree, and_false, if_false]
    exact ends_insertChunksBulk hw _ _ _ _

/-! ## Immediate writes -/

/-- What an immediate write makes of the end of its loop. -/
def conclude (w : Write) (env : SqliteEnv) : Option Status × SqliteArchive → SqliteArchive × Answer
  | (none, a) => (a, .threw (lit "Couldn't insert chunk in sqlite database: " ++ env.errmsg))
  | (some status, a) => finishWrite w.path env status a

/-- The chunks of an immediate write. -/
theorem ends_insertChunks (hw : w.immediate = true) (chunks : List Bytes) :
    ∀ (chunkidx : ℕ) (status : Status) (a : SqliteArchive),
      ((insertChunks chunkidx chunks a).1 = true →
        Ends lz4 env result ((insertChunks chunkidx chunks a).2, .goesOn (.writePtr w .commit))) →
      ((insertChunks chunkidx chunks a).1 = false →
        conclude w env (none, (insertChunks chunkidx chunks a).2) = result) →
      Ends lz4 env result (advance w env chunkidx chunks status a) := by
  induction chunks with
  | nil =>
    intro chunkidx status a hcommit _
    rw [advance, if_pos hw]
    exact hcommit rfl
  | cons chunk rest ih =>
    intro chunkidx status a hcommit hthrow
    refine Ends.of_step ?_
    rw [insertChunks] at hcommit hthrow
    dsimp only at hcommit hthrow
    by_cases hdone : (a.bindChunk chunk chunkidx).stepInsertContents.1 = .done
    · rw [if_neg (not_not.mpr hdone)] at hcommit hthrow
      simp only [Task.step, hdone, ne_eq, not_true_eq_false, and_false, if_false, reduceCtorEq]
      exact ih (chunkidx + 1) _ _ hcommit hthrow
    · rw [if_pos hdone] at hthrow
      simp only [Task.step, hw, hdone, ne_eq, not_false_eq_true, and_self, if_true]
      exact hthrow rfl

/-- An immediate write. -/
theorem ends_immediateLoop (lz4 : Lz4) (env : SqliteEnv) (hw : w.immediate = true) (fuel : ℕ) :
    ∀ a : SqliteArchive, a.connection.verdicts.length < fuel →
      Ends lz4 env (conclude w env (immediateLoop (encode lz4 w).chunks fuel a))
        (a, .goesOn (.writePtr w .begin)) := by
  induction fuel with
  | zero => exact fun a h => absurd h (Nat.not_lt_zero _)
  | succ fuel ih =>
    intro a h
    have hlength := length_insertChunks (encode lz4 w).chunks 0 a.stepBegin.2.stepInsertFilename.2
    rw [consumes_stepInsertFilename.verdicts, consumes_stepBegin.verdicts, List.length_tail,
      List.length_tail] at hlength
    -- `BEGIN` and the row of `file_list`.
    refine Ends.of_step (Ends.of_step ?_)
    simp only [Task.step, hw, Bool.not_true, Bool.false_eq_true, false_and, if_false]
    rw [immediateLoop_succ]
    unfold inserts
    refine ends_insertChunks hw _ _ _ _ (fun hall => Ends.of_step ?_) fun hstuck => ?_
    · -- `COMMIT`, which ends the loop unless the file is locked.
      rw [hall, Bool.not_true, if_neg Bool.false_ne_true]
      simp only [Task.step]
      generalize insertChunks 0 (encode lz4 w).chunks a.stepBegin.2.stepInsertFilename.2 = inserted
        at hlength ⊢
      by_cases hbusy : inserted.2.stepEnd.1 = .busy
      · have hpos := List.length_pos_of_ne_nil (consumes_stepEnd.busy _ hbusy)
        rw [if_pos hbusy, if_pos hbusy]
        apply ih
        rw [consumes_stepEnd.verdicts, List.length_tail]
        omega
      · rw [if_neg hbusy, if_neg hbusy]
        rfl
    · simp only [hstuck, Bool.not_false, if_true]

/-- `writePtr`. -/
theorem ends_writePtr (lz4 : Lz4) {a : SqliteArchive} (hmode : a.mode ≠ .read) (w : Write)
    (env : SqliteEnv) :
    Ends lz4 env (a.writePtr lz4 w env) ((a.meet env).bindRecord env.memory w.path (encode lz4 w),
      .goesOn (.writePtr w (if w.immediate then .begin else .filename))) := by
  rw [writePtr, if_neg hmode]
  dsimp only
  cases hw : w.immediate with
  | true =>
    have hloop := ends_immediateLoop lz4 env hw
      ((a.meet env).bindRecord env.memory w.path (encode lz4 w)).fuel
      ((a.meet env).bindRecord env.memory w.path (encode lz4 w)) (Nat.lt_succ_self _)
    simp only [if_true]
    rcases hresult : immediateLoop (encode lz4 w).chunks _ _ with ⟨- | status, b⟩
    · rw [hresult] at hloop
      exact hloop
    · rw [hresult] at hloop
      exact hloop
  | false => exact ends_bulk hw _

end SqliteArchive

end Libgetar
