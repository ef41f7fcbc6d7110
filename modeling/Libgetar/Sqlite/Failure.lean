import Libgetar.Sqlite.Literal
import Libgetar.Sqlite.Refine

/-!
# When a write throws

An immediate write that throws does not roll back: its transaction stays open, what it has inserted
is seen by this archive, and unless it was `COMMIT` that failed, its statements keep its parameters
(`Failed`). Nothing of it is committed. So it leaves no trace if the archive is closed before another
write, or if the same write is made again while its parameters are still in memory, since that continues
where the first one has stopped (`Recovers`).

The proof compares the run with the one without the failed call. The states are related by `Failed`
until the archive is closed or the write is made again, and from then on they are the same, but for
the verdicts that the last call has not used up (`Same`).
-/

namespace Libgetar

open Lib Sqlite

/-- The calls of a run, over closing and opening the file again. -/
inductive SqliteOp where
  | call (c : Call) (env : SqliteEnv)
  | reopen (mode : OpenMode)

namespace SqliteArchive

/-- `close`, and the constructor on the file that is left. -/
def reopen (mode : OpenMode) (a : SqliteArchive) : SqliteArchive :=
  (ofFile mode (some a.close)).getD a

/-- One call or re-opening. -/
def opStep (lz4 : Lz4) (a : SqliteArchive) : SqliteOp → SqliteArchive × Answer
  | .call c env => a.step lz4 (c, env)
  | .reopen mode => (a.reopen mode, .done)

/-- After a write has thrown, only other paths are read until the archive is closed, or until the
same write is made again, with a `BEGIN` that would do its work, and with the path and the chunks of
the first time still in memory. Where the path of an earlier read was, its path does not come to be. -/
def Recovers (lz4 : Lz4) (w : Write) : List SqliteOp → Prop
  | [] => True
  | .reopen _ :: _ => True
  | .call (.read path) env :: rest =>
    path ≠ w.path ∧ (∀ kept ≠ w.path, env.memory .selected kept ≠ w.path) ∧ Recovers lz4 w rest
  | .call (.writePtr w') env :: _ =>
    w' = w ∧ env.verdicts.headD .ok = .ok ∧ InMemory env.memory w.path (encode lz4 w)

/-- A write is immediate and returns normally. -/
def ReturnsNormally (lz4 : Lz4) (a : SqliteArchive) (op : SqliteOp) : Prop :=
  ∀ w env, op = .call (.writePtr w) env → w.immediate = true ∧ (a.writePtr lz4 w env).2 = .done

/-- In some attempt of a write that counts, the row of `file_list` is inserted. -/
def Inserted (lz4 : Lz4) (op : SqliteOp) : Prop :=
  ∀ w env, op = .call (.writePtr w) env → RowInserted (encode lz4 w).chunks.length env.verdicts

/-- A write has stored its record, in the file. -/
def Stores (lz4 : Lz4) (a : SqliteArchive) (op : SqliteOp) : Prop :=
  ∀ w env, op = .call (.writePtr w) env →
    (a.writePtr lz4 w env).1.close = a.close.store w.path (encode lz4 w)

variable {a b a₀ : SqliteArchive} {db : Db} {lz4 : Lz4}

/-! ## Archives that are the same -/

/-- The archives differ in verdicts that the last call has left. -/
def Same (a b : SqliteArchive) : Prop := a.meet {} = b.meet {}

theorem Same.meet (h : Same a b) (env : SqliteEnv) : a.meet env = b.meet env := by
  have hmeet : a.meet {} = b.meet {} := h
  have henv := congrArg (fun c : SqliteArchive => c.meet env) hmeet
  exact henv

theorem Same.mode (h : Same a b) : a.mode = b.mode := by
  have hmeet : a.meet {} = b.meet {} := h
  have hmode := congrArg SqliteArchive.mode hmeet
  exact hmode

theorem Same.close (h : Same a b) : a.close = b.close := by
  have hmeet : a.meet {} = b.meet {} := h
  have hclose := congrArg SqliteArchive.close hmeet
  exact hclose

theorem reopen_congr (h : a.close = b.close) (mode : OpenMode) : a.reopen mode = b.reopen mode := by
  unfold reopen
  rw [h]
  cases mode
  all_goals rfl

/-- Nobody can tell them apart. -/
theorem opStep_same (h : Same a b) (lz4 : Lz4) (op : SqliteOp) :
    (a.opStep lz4 op).2 = (b.opStep lz4 op).2 ∧ Same (a.opStep lz4 op).1 (b.opStep lz4 op).1 := by
  cases op with
  | reopen mode =>
    refine ⟨rfl, ?_⟩
    show Same (a.reopen mode) (b.reopen mode)
    rw [reopen_congr h.close]
    rfl
  | call c env =>
    cases c with
    | read path =>
      have hread : a.read lz4 path env = b.read lz4 path env := by
        unfold SqliteArchive.read readWithin
        rw [h.meet env]
      simp only [SqliteArchive.opStep, step, hread]
      exact ⟨trivial, rfl⟩
    | writePtr w =>
      by_cases hmode : b.mode = .read
      · have hmode' : a.mode = .read := h.mode.trans hmode
        simp only [SqliteArchive.opStep, step, writePtr, hmode, hmode', if_true]
        exact ⟨trivial, h⟩
      · have hwrite : a.writePtr lz4 w env = b.writePtr lz4 w env := by
          unfold writePtr
          rw [h.meet env, h.mode, if_neg hmode, if_neg hmode]
        simp only [SqliteArchive.opStep, step, hwrite]
        exact ⟨trivial, rfl⟩

/-- Two writes with the same outcome. -/
theorem Written.same {path : Bytes} (ha : Written a₀ path db a) (hb : Written a₀ path db b) :
    Same a b := by
  -- The statements are as after a reset.
  have hstatements : ∀ {c : SqliteArchive}, c.resetStatements = c →
      c.beginStmt = ⟨(), false⟩ ∧ c.endStmt = ⟨(), false⟩ ∧ c.insertFilenameStmt = ⟨none, false⟩ ∧
        c.insertContentsStmt = ⟨{}, false⟩ := by
    intro c hreset
    exact ⟨(congrArg beginStmt hreset).symm, (congrArg endStmt hreset).symm,
      (congrArg insertFilenameStmt hreset).symm, (congrArg insertContentsStmt hreset).symm⟩
  obtain ⟨hbegin, hend, hfilename, hcontents⟩ := hstatements ha.reset
  obtain ⟨hbegin', hend', hfilename', hcontents'⟩ := hstatements hb.reset
  refine SqliteArchive.ext (ha.mode.trans hb.mode.symm) (ha.fileNames.trans hb.fileNames.symm)
    (Connection.ext (ha.committed.trans hb.committed.symm) (ha.working.trans hb.working.symm)
      (ha.inTransaction.trans hb.inTransaction.symm) rfl)
    (hbegin.trans hbegin'.symm) (hend.trans hend'.symm) (hfilename.trans hfilename'.symm)
    (hcontents.trans hcontents'.symm) (ha.select.trans hb.select.symm)

/-! ## Between the failed write and what ends it -/

/-- The path that a read is about, as its statement has it. -/
def selected (a : SqliteArchive) (path : Bytes) (env : SqliteEnv) : Option Bytes :=
  (a.selectContentsStmt.bind (Option.map (env.memory .selected)) fun _ => some path).bindings

/-- A read depends on its statement and on the rows that it selects. -/
theorem read_congr (lz4 : Lz4) (path : Bytes) (env : SqliteEnv) (hselect : a.selectContentsStmt = b.selectContentsStmt)
    (hrows : ∀ path', a.selected path env = some path' →
      a.connection.working.rows path' = b.connection.working.rows path') :
    (a.read lz4 path env).2 = (b.read lz4 path env).2 ∧
      (a.read lz4 path env).1.selectContentsStmt = (b.read lz4 path env).1.selectContentsStmt ∧
      (a.read lz4 path env).1.selectContentsStmt.bindings = a.selected path env := by
  have hbind : (a.meet env).selectContentsStmt.bind (Option.map (env.memory .selected))
      (fun _ => some path) = (b.meet env).selectContentsStmt.bind
        (Option.map (env.memory .selected)) (fun _ => some path) :=
    congrArg (fun stmt => Statement.bind stmt (Option.map (env.memory .selected)) fun _ => some path)
      hselect
  have hverdict : (a.meet env).connection.verdict = (b.meet env).connection.verdict := rfl
  have hselected : a.selected path env = ((b.meet env).selectContentsStmt.bind
      (Option.map (env.memory .selected)) fun _ => some path).bindings :=
    congrArg Statement.bindings hbind
  unfold read readWithin
  simp only
  rw [hbind, hverdict, hselected]
  rw [hselected] at hrows
  generalize (b.meet env).selectContentsStmt.bind (Option.map (env.memory .selected))
    (fun _ => some path) = stmt at hrows ⊢
  have hfound : selectedRows { a.meet env with selectContentsStmt := stmt } =
      selectedRows { b.meet env with selectContentsStmt := stmt } := by
    unfold selectedRows
    cases hbound : stmt.bindings with
    | none => rfl
    | some path' => exact hrows path' hbound
  rw [hfound]
  generalize selectedRows { b.meet env with selectContentsStmt := stmt } = rows
  by_cases hok : (b.meet env).connection.verdict ≠ .ok
  · simp only [if_pos hok]
    exact ⟨trivial, trivial, rfl⟩
  · simp only [if_neg hok]
    cases rows with
    | nil => exact ⟨rfl, rfl, rfl⟩
    | cons first rest =>
      -- The rows that are left are fetched alike.
      have hfetch := fetch_congr rest (show (a.meet env).connection.rest.verdicts =
        (b.meet env).connection.rest.verdicts from rfl)
      simp only
      rw [hfetch]
      cases assemble lz4 arrayBound env.fresh path first.1.uncompressedSize first.1.compressLevel
        ((first :: (Connection.fetch rest (b.meet env).connection.rest).1).map Prod.snd)
      all_goals exact ⟨rfl, rfl, rfl⟩

/-- The archive `a` is where the failed write that began with `b` has left it, but for reads of other
paths. -/
structure Pending (w : Write) (e : Encoded) (a b : SqliteArchive) : Prop where
  failed : Failed b w.path e a
  clean : ∃ db, Clean b db
  mode : b.mode ≠ .read
  select : b.selectContentsStmt.stepped = true → b.selectContentsStmt.bindings ≠ some w.path

variable {w : Write} {e : Encoded}

/-- Reads of other paths. -/
theorem Pending.read (h : Pending w e a b) (lz4 : Lz4) {path : Bytes} (hne : path ≠ w.path)
    {env : SqliteEnv} (hkept : ∀ kept ≠ w.path, env.memory .selected kept ≠ w.path) :
    (a.read lz4 path env).2 = (b.read lz4 path env).2 ∧
      Pending w e (a.read lz4 path env).1 (b.read lz4 path env).1 := by
  obtain ⟨row, k, hholding, hstatements⟩ := h.failed
  obtain ⟨db, hclean⟩ := h.clean
  -- The statement selects another path, whether it can be bound or not.
  have hselected : b.selected path env ≠ some w.path := by
    unfold selected Statement.bind
    dsimp only
    split
    · next hstepped =>
      intro heq
      obtain ⟨kept, hbound, hnow⟩ := Option.map_eq_some_iff.mp heq
      exact hkept kept (fun hsame => h.select hstepped (hsame ▸ hbound)) hnow
    · exact fun heq => hne (Option.some.inj heq)
  have hselect := hholding.select
  have hrows : ∀ path', a.selected path env = some path' →
      a.connection.working.rows path' = b.connection.working.rows path' := by
    intro path' hpath'
    have hother : path' ≠ w.path := by
      rintro rfl
      apply hselected
      rw [← hpath', selected, selected, hselect]
    rw [hholding.partly.rows hother, hclean.committed, hclean.working]
  obtain ⟨hanswer, hstmt, -⟩ := read_congr lz4 path env hselect hrows
  obtain ⟨-, -, hbound⟩ := read_congr lz4 path env (rfl : b.selectContentsStmt = _) fun _ _ => rfl
  refine ⟨hanswer, ?_⟩
  have hcleanRead := read_clean lz4 path env hclean
  obtain ⟨verdicts, stmt, ha⟩ := read_frame lz4 a path env
  obtain ⟨verdicts', stmt', hb⟩ := read_frame lz4 b path env
  rw [ha, hb] at hstmt
  rw [hb] at hbound hcleanRead
  rw [ha, hb]
  have hkept : Holding true { b with
      connection := { b.connection with verdicts := verdicts' }
      selectContentsStmt := stmt' } w.path e row k { a with
      connection := { a.connection with verdicts := verdicts }
      selectContentsStmt := stmt } := { hholding with select := hstmt }
  refine ⟨⟨row, k, hkept, ?_⟩, ⟨db, hcleanRead⟩, h.mode, fun _ => by rw [hbound]; exact hselected⟩
  rcases hstatements with hstuck | hreset
  · exact Or.inl { hkept with
      filename := hstuck.filename, contents := hstuck.contents, stepped := hstuck.stepped }
  · exact Or.inr hreset

/-- Closing the archive loses what was not committed. -/
theorem Pending.reopen (h : Pending w e a b) (mode : OpenMode) : a.reopen mode = b.reopen mode := by
  obtain ⟨row, k, hholding, -⟩ := h.failed
  exact reopen_congr hholding.committed mode

/-- The same write is made again and returns normally: so it does without the failed write, with the
same tables. -/
theorem Pending.writePtr (h : Pending w (encode lz4 w) a b) (hw : w.immediate = true)
    {env : SqliteEnv} (hbegin : env.verdicts.headD .ok = .ok)
    (hkept : InMemory env.memory w.path (encode lz4 w))
    (hinserted : RowInserted (encode lz4 w).chunks.length env.verdicts)
    (hdone : (a.writePtr lz4 w env).2 = .done) :
    (b.writePtr lz4 w env).2 = .done ∧ Same (a.writePtr lz4 w env).1 (b.writePtr lz4 w env).1 ∧
      Clean (a.writePtr lz4 w env).1 (a.close.store w.path (encode lz4 w)) := by
  obtain ⟨db, hclean⟩ := h.clean
  obtain ⟨_, _, hholding, -⟩ := h.failed
  have hmode : a.mode ≠ .read := hholding.mode ▸ h.mode
  have hclose : a.close = db := hholding.committed.trans hclean.committed
  obtain ⟨_, hattempted⟩ := h.failed.attempted hkept
  -- The run with the failed write.
  rcases writePtr_of_attempted lz4 env hmode hw hattempted with
    ⟨-, hcompletes, row, hrow, hwritten⟩ | ⟨⟨message, hthrew⟩, -⟩
  · rw [hrow.mpr (Or.inr hinserted), hclean.committed] at hwritten
    -- The run without it.
    rcases writePtr_immediate lz4 env hclean h.mode hw with
      ⟨hdone', -, -, row', hrow', hwritten'⟩ | ⟨-, -, hthrew⟩
    · rw [hrow'.mpr hinserted] at hwritten'
      rw [hclose]
      exact ⟨hdone', hwritten.same hwritten', hwritten.toClean⟩
    · exact absurd hcompletes (hthrew hbegin).1
  · rw [hthrew] at hdone
    cases hdone

/-! ## Runs -/

/-- An archive that is opened is between two calls. -/
theorem clean_ofFile {mode : OpenMode} {disk : Option Db} (h : ofFile mode disk = some a) :
    (∃ db, Clean a db) ∧ a.selectContentsStmt.stepped = false := by
  cases mode <;> cases disk <;> cases h <;> exact ⟨⟨_, rfl, rfl, rfl, rfl, rfl⟩, rfl⟩

theorem clean_reopen (mode : OpenMode) (a : SqliteArchive) :
    (∃ db, Clean (a.reopen mode) db) ∧ (a.reopen mode).selectContentsStmt.stepped = false := by
  cases mode <;> exact ⟨⟨_, rfl, rfl, rfl, rfl, rfl⟩, rfl⟩

/-- A write that returns normally leaves the archive between two calls. -/
theorem writePtr_clean (hclean : Clean a db) {w : Write} {env : SqliteEnv} (hw : w.immediate = true)
    (hdone : (a.writePtr lz4 w env).2 = .done) : ∃ row,
      (row = true ↔ RowInserted (encode lz4 w).chunks.length env.verdicts) ∧
        Written a w.path (db.attempt w.path (encode lz4 w) row) (a.writePtr lz4 w env).1 := by
  have hmode : a.mode ≠ .read := by
    intro hread
    rw [SqliteArchive.writePtr, if_pos hread] at hdone
    cases hdone
  rcases writePtr_immediate lz4 env hclean hmode hw with ⟨-, -, -, hwritten⟩ |
    ⟨⟨message, hthrew⟩, -⟩
  · exact hwritten
  · rw [hthrew] at hdone
    cases hdone

/-- When the archives are the same, so are the runs, and every write is stored. -/
theorem Same.run {ops : List SqliteOp} : ∀ {a b : SqliteArchive}, Same a b → (∃ db, Clean a db) →
    Along (opStep lz4) (fun a op => ReturnsNormally lz4 a op ∧ Inserted lz4 op) a ops →
    outputs (opStep lz4) a ops = outputs (opStep lz4) b ops ∧
      (exec (opStep lz4) a ops).close = (exec (opStep lz4) b ops).close ∧
      Along (opStep lz4) (Stores lz4) a ops := by
  induction ops with
  | nil => exact fun h _ _ => ⟨rfl, h.close, trivial⟩
  | cons op ops ih =>
    rintro a b h ⟨db, hclean⟩ ⟨⟨hnormal, hinserted⟩, hrest⟩
    obtain ⟨hanswer, hsame⟩ := opStep_same h lz4 op
    have hstep : (∃ db', Clean (a.opStep lz4 op).1 db') ∧ Stores lz4 a op := by
      cases op with
      | reopen mode => exact ⟨(clean_reopen mode a).1, nofun⟩
      | call c env =>
        cases c with
        | read path => exact ⟨⟨db, read_clean lz4 path env hclean⟩, nofun⟩
        | writePtr w =>
          obtain ⟨hw, hdone⟩ := hnormal w env rfl
          obtain ⟨row, hrow, hwritten⟩ := writePtr_clean hclean hw hdone
          rw [hrow.mpr (hinserted w env rfl)] at hwritten
          refine ⟨⟨_, hwritten.toClean⟩, fun w' env' heq => ?_⟩
          cases heq
          have hclose : a.close = db := hclean.committed
          rw [hclose]
          exact hwritten.committed
    obtain ⟨houtputs, hclose, hstores⟩ := ih hsame hstep.1 hrest
    rw [outputs_cons, outputs_cons, hanswer, houtputs]
    exact ⟨rfl, hclose, hstep.2, hstores⟩

/-- The same of an archive that a failed write has left. -/
theorem Pending.run {w : Write} (hw : w.immediate = true) {ops : List SqliteOp} :
    ∀ {a b : SqliteArchive}, Pending w (encode lz4 w) a b → Recovers lz4 w ops →
    Along (opStep lz4) (fun a op => ReturnsNormally lz4 a op ∧ Inserted lz4 op) a ops →
    outputs (opStep lz4) a ops = outputs (opStep lz4) b ops ∧
      (exec (opStep lz4) a ops).close = (exec (opStep lz4) b ops).close ∧
      Along (opStep lz4) (Stores lz4) a ops := by
  induction ops with
  | nil =>
    intro a b h _ _
    obtain ⟨row, k, hholding, -⟩ := h.failed
    exact ⟨rfl, hholding.committed, trivial⟩
  | cons op ops ih =>
    rintro a b h hrecovers ⟨⟨hnormal, hinserted⟩, hrest⟩
    cases op with
    | reopen mode =>
      -- The file is closed.
      have hsame : Same (a.reopen mode) (b.reopen mode) := by
        rw [h.reopen mode]
        rfl
      obtain ⟨houtputs, hclose, hstores⟩ := hsame.run (clean_reopen mode a).1 hrest
      exact ⟨congrArg (Answer.done :: ·) houtputs, hclose, nofun, hstores⟩
    | call c env =>
      cases c with
      | read path =>
        -- A read of another path keeps the failed write pending.
        obtain ⟨hne, hkept, hrecovers⟩ := hrecovers
        obtain ⟨hanswer, hpending⟩ := h.read lz4 hne hkept
        obtain ⟨houtputs, hclose, hstores⟩ := ih hpending hrecovers hrest
        exact ⟨congrArg₂ List.cons hanswer houtputs, hclose, nofun, hstores⟩
      | writePtr w' =>
        -- The same write again, which succeeds: from here on the archives are the same.
        obtain ⟨rfl, hbegin, hkept⟩ := hrecovers
        obtain ⟨-, hdone⟩ := hnormal w' env rfl
        obtain ⟨hdone', hsame, hstored⟩ := h.writePtr hw hbegin hkept (hinserted w' env rfl) hdone
        obtain ⟨houtputs, hclose, hstores⟩ := hsame.run ⟨_, hstored⟩ hrest
        refine ⟨congrArg₂ List.cons (hdone.trans hdone'.symm) houtputs, hclose, ?_, hstores⟩
        intro w env' heq
        cases heq
        exact hstored.committed

/-- Every call has returned normally, and the writes are immediate. -/
def IsNormal (lz4 : Lz4) (a : SqliteArchive) (op : SqliteOp) : Prop :=
  (a.opStep lz4 op).2.isNormal = true ∧ ∀ w env, op = .call (.writePtr w) env → w.immediate = true

/-- After such a run the archive is between two calls, and its statement for reads is reset. -/
theorem exec_clean {mode : OpenMode} {disk : Option Db} (hopen : ofFile mode disk = some a)
    {ops : List SqliteOp} (h : Along (opStep lz4) (IsNormal lz4) a ops) :
    (∃ db, Clean (exec (opStep lz4) a ops) db) ∧
      (exec (opStep lz4) a ops).selectContentsStmt.stepped = false := by
  refine exec_along (P := fun a => (∃ db, Clean a db) ∧ a.selectContentsStmt.stepped = false) ?_
    (clean_ofFile hopen) h
  rintro a op ⟨hnormal, himmediate⟩ ⟨⟨db, hclean⟩, hselect⟩
  cases op with
  | reopen mode => exact clean_reopen mode a
  | call c env =>
    cases c with
    | read path =>
      refine ⟨⟨db, read_clean lz4 path env hclean⟩, read_stepped lz4 a path env fun message hthrew => ?_⟩
      have hnot : (Answer.threw message).isNormal = true := hthrew ▸ hnormal
      cases hnot
    | writePtr w =>
      have hdone : (a.writePtr lz4 w env).2 = .done := by
        by_cases hmode : a.mode = .read
        · rw [opStep, step, SqliteArchive.writePtr, if_pos hmode] at hnormal
          cases hnormal
        · rcases writePtr_immediate lz4 env hclean hmode (himmediate w env rfl) with
            ⟨hdone, -⟩ | ⟨⟨message, hthrew⟩, -⟩
          · exact hdone
          · have hnot : (Answer.threw message).isNormal = true := hthrew ▸ hnormal
            cases hnot
      obtain ⟨row, -, hwritten⟩ := writePtr_clean hclean (himmediate w env rfl) hdone
      exact ⟨⟨_, hwritten.toClean⟩, hwritten.select ▸ hselect⟩

end SqliteArchive

end Libgetar
