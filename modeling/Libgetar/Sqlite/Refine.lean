import Libgetar.Sqlite.Tables

/-!
# What a write does to an archive

A write is followed through its statements. `Holding` says what it has in the tables so far, and
whether it has a transaction, in which case nothing is committed; `Writing` that its parameters are
bound; `Stuck` that a chunk was not inserted, so that the parameters of that chunk stay bound until
the statement is reset. Every statement moves a write in one known way (`stepBegin_spec`,
`stepInsertFilename_spec`, `stepInsertContents_spec`, `stepEnd_spec`), and so do the loops.

From an archive between two calls (`Clean`) the outcome of `writePtr` follows: the tables of
`Db.store` are committed when every step does its work (`writePtr_ok`); an immediate write has either
committed its chunks, with the row of `file_list` if an attempt that counts has inserted it
(`RowInserted`), or it throws and leaves its transaction open (`writePtr_immediate`).
-/

namespace Libgetar

open Lib Sqlite

namespace Sqlite

/-! ## Verdicts -/

namespace Connection

variable {c : Connection} {work : Connection → Status × Connection}

theorem perform_of_ok (h : c.verdict = .ok) : c.perform work = work c.rest := by
  rw [perform, h]

/-- A step that does not do its work says so. -/
theorem perform_of_ne (work : Connection → Status × Connection) (h : c.verdict ≠ .ok) :
    (c.perform work).1 ≠ .done ∧ (c.perform work).2 = c.rest := by
  unfold perform
  split
  · next hok => exact absurd hok h
  · exact ⟨nofun, rfl⟩
  · exact ⟨nofun, rfl⟩

/-- The verdict of a connection that has used up some of its verdicts. -/
theorem verdict_of_drop {verdicts : List Verdict} {k : ℕ} (h : c.verdicts = verdicts.drop k) :
    c.verdict = verdicts.getD k .ok := by
  rw [verdict, h, List.headD_eq_head?_getD, List.head?_drop, List.getD_eq_getElem?_getD]

end Connection

/-- A verdict that is against a step is among those of the call. -/
theorem exists_ne_ok_of_getD {verdicts : List Verdict} {k : ℕ} (h : verdicts.getD k .ok ≠ .ok) :
    ∃ v ∈ verdicts, v ≠ .ok := by
  rw [List.getD_eq_getElem?_getD] at h
  cases hget : verdicts[k]? with
  | none =>
    rw [hget] at h
    exact absurd rfl h
  | some v =>
    rw [hget] at h
    exact ⟨v, List.mem_of_getElem? hget, h⟩

/-- Some attempt of an immediate write with `n` chunks inserts the row of `file_list`: an attempt has
`n + 3` steps, and the next one is made when `COMMIT` finds the file locked. -/
inductive RowInserted (n : ℕ) : List Verdict → Prop where
  | now {verdicts : List Verdict} : verdicts.getD 1 .ok = .ok → RowInserted n verdicts
  | later {verdicts : List Verdict} : verdicts.getD (n + 2) .ok = .busy →
      RowInserted n (verdicts.drop (n + 3)) → RowInserted n verdicts

/-- The attempts of an immediate write with `n` chunks, whose transaction is open, end with the work
of `COMMIT`. -/
inductive Completes (n : ℕ) : List Verdict → Prop where
  | now {verdicts : List Verdict} : (∀ v ∈ (verdicts.drop 2).take n, v = .ok) →
      verdicts.getD (n + 2) .ok = .ok → Completes n verdicts
  | later {verdicts : List Verdict} : (∀ v ∈ (verdicts.drop 2).take n, v = .ok) →
      verdicts.getD (n + 2) .ok = .busy → Completes n (verdicts.drop (n + 3)) → Completes n verdicts

end Sqlite

namespace SqliteArchive

/-! ## Where a write stands -/

/-- The archive is between two calls: there is no open transaction, and the parameters of the inserts
can be bound. -/
structure Clean (a : SqliteArchive) (db : Db) : Prop where
  committed : a.connection.committed = db
  working : a.connection.working = db
  inTransaction : a.connection.inTransaction = false
  filename : a.insertFilenameStmt.stepped = false
  contents : a.insertContentsStmt.stepped = false

/-- A write that began with `a₀` has some of its rows in the tables, among them the first `k` chunks,
and the row of `file_list` if `row` says so. In a transaction, `inside`, what was committed has not
changed; outside, every statement commits by itself. -/
structure Holding (inside : Bool) (a₀ : SqliteArchive) (path : Bytes) (e : Encoded) (row : Bool)
    (k : ℕ) (a : SqliteArchive) : Prop where
  mode : a.mode = a₀.mode
  fileNames : a.fileNames = a₀.fileNames
  select : a.selectContentsStmt = a₀.selectContentsStmt
  inTransaction : a.connection.inTransaction = inside
  committed : a.connection.committed =
    if inside then a₀.connection.committed else a.connection.working
  partly : Db.Partly path e row a₀.connection.committed a.connection.working
  filled : Db.Filled path e k a.connection.working

/-- The parameters of the row of `file_list` are bound. -/
structure Named (inside : Bool) (a₀ : SqliteArchive) (path : Bytes) (e : Encoded) (row : Bool)
    (k : ℕ) (a : SqliteArchive) : Prop extends Holding inside a₀ path e row k a where
  filename : a.insertFilenameStmt.bindings = some (path, e.row)

/-- The next chunk can be bound. -/
structure Writing (inside : Bool) (a₀ : SqliteArchive) (path : Bytes) (e : Encoded) (row : Bool)
    (k : ℕ) (a : SqliteArchive) : Prop extends Named inside a₀ path e row k a where
  contents : a.insertContentsStmt.bindings.path = some path
  ready : a.insertContentsStmt.stepped = false

/-- The next chunk is bound. -/
structure Bound (inside : Bool) (a₀ : SqliteArchive) (path : Bytes) (e : Encoded) (row : Bool)
    (k : ℕ) (a : SqliteArchive) : Prop extends Named inside a₀ path e row k a where
  contents : ∃ chunk, e.chunks[k]? = some chunk ∧
    a.insertContentsStmt.bindings = ⟨some path, some chunk, some k⟩

/-- The next chunk was not inserted, and its parameters cannot be bound again. -/
structure Stuck (inside : Bool) (a₀ : SqliteArchive) (path : Bytes) (e : Encoded) (row : Bool)
    (k : ℕ) (a : SqliteArchive) : Prop extends Bound inside a₀ path e row k a where
  stepped : a.insertContentsStmt.stepped = true

variable {inside : Bool} {a₀ a : SqliteArchive} {path : Bytes} {e : Encoded} {row : Bool} {k : ℕ}
  {db : Db}

/-- Nothing is written yet. -/
theorem Clean.writing (h : Clean a db) (path : Bytes) (e : Encoded) (env : SqliteEnv) :
    Writing false a path e false 0 ((a.meet env).bindRecord env.memory path e) where
  mode := rfl
  fileNames := rfl
  select := rfl
  inTransaction := h.inTransaction
  committed := h.committed.trans h.working.symm
  partly := by
    have hsame : a.connection.working = a.connection.committed := h.working.trans h.committed.symm
    have hrefl := Db.Partly.refl path e a.connection.committed
    rwa [← hsame] at hrefl ⊢
  filled := fun i hi => absurd hi (Nat.not_lt_zero i)
  filename := by
    simp only [bindRecord, meet, Statement.bind, h.filename]
    rfl
  contents := by
    simp only [bindRecord, meet, Statement.bind, h.contents]
    rfl
  ready := by simp only [bindRecord, meet, Statement.bind, h.contents]

/-! ## Single steps -/

/-- `BEGIN` opens a transaction if it does its work, and one that is open stays open. -/
theorem stepBegin_spec (h : Named inside a₀ path e row k a)
    (hstart : inside = false → a.connection.committed = a₀.connection.committed) :
    Named (inside || decide (a.connection.verdict = .ok)) a₀ path e row k a.stepBegin.2 ∧
      a.stepBegin.2.connection.verdicts = a.connection.verdicts.tail := by
  unfold stepBegin Connection.begin
  rw [h.inTransaction]
  cases inside with
  | true =>
    rw [if_pos rfl, Bool.true_or]
    exact ⟨{ h with }, rfl⟩
  | false =>
    rw [if_neg (by decide), Bool.false_or]
    by_cases hok : a.connection.verdict = .ok
    · rw [Connection.perform_of_ok hok, decide_eq_true hok]
      exact ⟨{ h with inTransaction := rfl, committed := hstart rfl }, rfl⟩
    · obtain ⟨-, hrest⟩ := Connection.perform_of_ne
        (fun c => (.done, { c with inTransaction := true })) hok
      rw [decide_eq_false hok]
      simp only [hrest]
      exact ⟨{ h with }, rfl⟩

/-- A change of the tables keeps the rest. -/
theorem Holding.change (h : Holding inside a₀ path e row k a) {f : Db → Db} {row' : Bool} {k' : ℕ}
    (hpartly : Db.Partly path e row' a₀.connection.committed (f a.connection.working))
    (hfilled : Db.Filled path e k' (f a.connection.working)) :
    Holding inside a₀ path e row' k'
      { a with connection := (a.connection.rest.change f).2 } where
  mode := h.mode
  fileNames := h.fileNames
  select := h.select
  inTransaction := h.inTransaction
  committed := by
    have hin : a.connection.rest.inTransaction = inside := h.inTransaction
    simp only [Connection.change, hin]
    cases inside with
    | true => exact h.committed
    | false => rfl
  partly := hpartly
  filled := hfilled

/-- The row of `file_list` is inserted if the step does its work. -/
theorem stepInsertFilename_spec (h : Named inside a₀ path e row k a) :
    Named inside a₀ path e (row || decide (a.connection.verdict = .ok)) k a.stepInsertFilename.2 ∧
      a.stepInsertFilename.2.connection.verdicts = a.connection.verdicts.tail ∧
      (a.connection.verdict = .ok → a.stepInsertFilename.1 = .done) := by
  unfold stepInsertFilename
  rw [h.filename]
  by_cases hok : a.connection.verdict = .ok
  · rw [Connection.perform_of_ok hok, decide_eq_true hok, Bool.or_true]
    have hchange := h.toHolding.change (f := fun db => db.insertFile path e.row) h.partly.insertFile h.filled
    exact ⟨{ hchange with filename := h.filename }, rfl, fun _ => rfl⟩
  · obtain ⟨-, hrest⟩ := Connection.perform_of_ne
      (Connection.insertFile (some (path, e.row))) hok
    rw [decide_eq_false hok, Bool.or_false]
    simp only [hrest]
    exact ⟨{ h with }, rfl, fun hok' => absurd hok' hok⟩

/-- The chunk that is bound is inserted and its statement reset, or the write is stuck at it. -/
theorem stepInsertContents_spec (h : Bound inside a₀ path e row k a) :
    a.stepInsertContents.2.connection.verdicts = a.connection.verdicts.tail ∧
      ((a.connection.verdict = .ok ∧ a.stepInsertContents.1 = .done ∧
          Writing inside a₀ path e row (k + 1) a.stepInsertContents.2.resetInsertContents) ∨
        (a.connection.verdict ≠ .ok ∧ a.stepInsertContents.1 ≠ .done ∧
          Stuck inside a₀ path e row k a.stepInsertContents.2)) := by
  obtain ⟨chunk, hchunk, hbind⟩ := h.contents
  unfold stepInsertContents
  rw [hbind]
  by_cases hok : a.connection.verdict = .ok
  · rw [Connection.perform_of_ok hok]
    have hchange := h.toHolding.change (f := fun db => db.insertChunk path k chunk)
      (h.partly.insertChunk hchunk) (h.filled.insertChunk hchunk)
    refine ⟨rfl, Or.inl ⟨hok, rfl, ?_⟩⟩
    exact { hchange with
      filename := h.filename
      contents := congrArg ContentsBindings.path hbind
      ready := rfl }
  · obtain ⟨hstatus, hrest⟩ := Connection.perform_of_ne
      (Connection.insertContents ⟨some path, some chunk, some k⟩) hok
    simp only [hrest]
    refine ⟨rfl, Or.inr ⟨hok, hstatus, ?_⟩⟩
    exact { h with contents := ⟨chunk, hchunk, hbind⟩, stepped := rfl }

/-- `COMMIT` ends a transaction if it does its work, and fails outside of one. -/
theorem stepEnd_spec (h : Writing inside a₀ path e row k a) :
    a.stepEnd.2.connection.verdicts = a.connection.verdicts.tail ∧
      ((inside = true ∧ a.connection.verdict = .ok ∧ a.stepEnd.1 = .done ∧
          Holding false a₀ path e row k a.stepEnd.2) ∨
        (inside = true ∧ a.connection.verdict = .busy ∧ a.stepEnd.1 = .busy ∧
          Writing inside a₀ path e row k a.stepEnd.2) ∨
        (a.stepEnd.1 = .error ∧ (inside = true → a.connection.verdict = .error) ∧
          Writing inside a₀ path e row k a.stepEnd.2)) := by
  unfold stepEnd Connection.commit
  rw [h.inTransaction]
  cases inside with
  | false =>
    rw [if_neg (by decide)]
    exact ⟨rfl, Or.inr (Or.inr ⟨rfl, nofun, { h with }⟩)⟩
  | true =>
    unfold Connection.perform
    rw [if_pos rfl]
    cases a.connection.verdict with
    | ok =>
      refine ⟨rfl, Or.inl ⟨rfl, rfl, rfl, ?_⟩⟩
      exact { h.toHolding with inTransaction := rfl, committed := rfl }
    | busy => exact ⟨rfl, Or.inr (Or.inl ⟨rfl, rfl, rfl, { h with }⟩)⟩
    | error => exact ⟨rfl, Or.inr (Or.inr ⟨rfl, fun _ => rfl, { h with }⟩)⟩

/-! ## Chunks -/

/-- A chunk is bound. -/
theorem Writing.bindChunk (h : Writing inside a₀ path e row k a) {chunk : Bytes}
    (hchunk : e.chunks[k]? = some chunk) : Bound inside a₀ path e row k (a.bindChunk chunk k) :=
  { h with
    contents := by
      refine ⟨chunk, hchunk, ?_⟩
      simp only [SqliteArchive.bindChunk, Statement.bind, h.ready, h.contents]
      rfl }

/-- Binding another chunk has no effect. -/
theorem Stuck.bindChunk (h : Stuck inside a₀ path e row k a) (chunk : Bytes) (chunkidx : ℕ) :
    Bound inside a₀ path e row k (a.bindChunk chunk chunkidx) :=
  { h with
    contents := by
      obtain ⟨chunk', hchunk', hbind⟩ := h.contents
      refine ⟨chunk', hchunk', ?_⟩
      simp only [SqliteArchive.bindChunk, Statement.bind, h.stepped, if_true]
      exact hbind }

/-- What comes of the chunks of a write: all of them are inserted, or the write is stuck at one. -/
def Outcome (inside : Bool) (a₀ : SqliteArchive) (path : Bytes) (e : Encoded) (row : Bool)
    (verdicts : List Verdict) (n : ℕ) (r : Bool × SqliteArchive) : Prop :=
  (r.1 = true ∧ (∀ v ∈ verdicts.take n, v = .ok) ∧ r.2.connection.verdicts = verdicts.drop n ∧
      Writing inside a₀ path e row e.chunks.length r.2) ∨
    (r.1 = false ∧ (∃ v ∈ verdicts.take n, v ≠ .ok) ∧ ∃ k, Stuck inside a₀ path e row k r.2)

/-- A chunk that is bound, and the loop over those behind it. -/
theorem insertChunks_of_bound {chunk : Bytes} {rest : List Bytes} {chunkidx : ℕ}
    (h : Bound inside a₀ path e row k (a.bindChunk chunk chunkidx))
    (hnext : ∀ {a : SqliteArchive}, Writing inside a₀ path e row (k + 1) a →
      Outcome inside a₀ path e row a.connection.verdicts rest.length
        (insertChunks (chunkidx + 1) rest a)) :
    Outcome inside a₀ path e row a.connection.verdicts (rest.length + 1)
      (insertChunks chunkidx (chunk :: rest) a) := by
  obtain ⟨hverdicts, ⟨hok, hdone, hwriting⟩ | ⟨hne, hstatus, hstuck⟩⟩ := stepInsertContents_spec h
  · -- The chunk is inserted, and the loop goes on.
    have hloop : insertChunks chunkidx (chunk :: rest) a = insertChunks (chunkidx + 1) rest
        (a.bindChunk chunk chunkidx).stepInsertContents.2.resetInsertContents := by
      rw [insertChunks]
      exact if_neg (not_not.mpr hdone)
    have htail : (a.bindChunk chunk chunkidx).stepInsertContents.2.resetInsertContents.connection.verdicts =
        a.connection.verdicts.tail := hverdicts
    have hrest := hnext hwriting
    rw [hloop]
    rw [htail] at hrest
    -- The verdict of this step, in front of those of the others.
    cases hlist : a.connection.verdicts with
    | nil =>
      rw [hlist] at hrest
      simpa only [Outcome, List.tail_nil, List.take_nil, List.drop_nil] using hrest
    | cons v vs =>
      have hv : v = .ok := by
        have hok' : a.connection.verdict = .ok := hok
        rw [Connection.verdict, hlist] at hok'
        exact hok'
      rw [hlist] at hrest
      simpa only [Outcome, List.tail_cons, List.take_succ_cons, List.drop_succ_cons,
        List.forall_mem_cons, List.exists_mem_cons_iff, hv, true_and, ne_eq, not_true, false_or]
        using hrest
  · -- The chunk is not inserted: the loop ends, and the verdict against it is the first one.
    have hloop : insertChunks chunkidx (chunk :: rest) a =
        (false, (a.bindChunk chunk chunkidx).stepInsertContents.2) := by
      rw [insertChunks]
      exact if_pos hstatus
    rw [hloop]
    refine Or.inr ⟨rfl, ?_, k, hstuck⟩
    cases hlist : a.connection.verdicts with
    | nil =>
      refine absurd ?_ hne
      change a.connection.verdict = .ok
      rw [Connection.verdict, hlist]
      rfl
    | cons v vs =>
      have hv : v ≠ .ok := by
        have hne' : a.connection.verdict ≠ .ok := hne
        rw [Connection.verdict, hlist] at hne'
        exact hne'
      exact ⟨v, List.mem_cons_self, hv⟩

/-- The loop over the chunks, from the next one on. -/
theorem insertChunks_spec (chunks : List Bytes) : ∀ {k : ℕ} {a : SqliteArchive},
    e.chunks.drop k = chunks → k ≤ e.chunks.length → Writing inside a₀ path e row k a →
    Outcome inside a₀ path e row a.connection.verdicts chunks.length (insertChunks k chunks a) := by
  induction chunks with
  | nil =>
    intro k a hdrop hk h
    have hall : k = e.chunks.length := hk.antisymm (List.drop_eq_nil_iff.mp hdrop)
    refine Or.inl ⟨rfl, ?_, rfl, hall ▸ h⟩
    simp
  | cons chunk rest ih =>
    intro k a hdrop hk h
    obtain ⟨hlt, hchunk, hrest⟩ := of_drop_eq_cons hdrop
    exact insertChunks_of_bound (h.bindChunk hchunk) fun hwriting => ih hrest hlt hwriting

/-! ## Attempts -/

/-- The part of an attempt in front of `COMMIT`. -/
def inserts (chunks : List Bytes) (a : SqliteArchive) : Bool × SqliteArchive :=
  insertChunks 0 chunks a.stepBegin.2.stepInsertFilename.2

/-- An attempt, in two parts. -/
theorem immediateLoop_succ (chunks : List Bytes) (fuel : ℕ) (a : SqliteArchive) :
    immediateLoop chunks (fuel + 1) a =
      if !(inserts chunks a).1 then (none, (inserts chunks a).2)
      else if (inserts chunks a).2.stepEnd.1 = .busy then
        immediateLoop chunks fuel (inserts chunks a).2.stepEnd.2
      else (some (inserts chunks a).2.stepEnd.1, (inserts chunks a).2.stepEnd.2) := rfl

/-- What comes of the inserts of an attempt. -/
def Attempted (inside : Bool) (a₀ : SqliteArchive) (path : Bytes) (e : Encoded) (row : Bool)
    (a : SqliteArchive) : Prop :=
  Outcome inside a₀ path e (row || decide (a.connection.verdicts.getD 1 .ok = .ok))
    (a.connection.verdicts.drop 2) e.chunks.length (inserts e.chunks a)

/-- The first two steps of an attempt concern the row of `file_list` only. -/
theorem begin_spec (h : Named inside a₀ path e row k a)
    (hstart : inside = false → a.connection.committed = a₀.connection.committed) :
    Named (inside || decide (a.connection.verdict = .ok)) a₀ path e
        (row || decide (a.connection.verdicts.getD 1 .ok = .ok)) k a.stepBegin.2.stepInsertFilename.2 ∧
      a.stepBegin.2.stepInsertFilename.2.insertContentsStmt = a.insertContentsStmt ∧
      a.stepBegin.2.stepInsertFilename.2.connection.verdicts = a.connection.verdicts.drop 2 := by
  obtain ⟨hbegin, hbeginVerdicts⟩ := stepBegin_spec h hstart
  obtain ⟨hfile, hfileVerdicts, -⟩ := stepInsertFilename_spec hbegin
  rw [← List.drop_one] at hbeginVerdicts
  rw [Connection.verdict_of_drop hbeginVerdicts] at hfile
  refine ⟨hfile, rfl, ?_⟩
  rw [hfileVerdicts, hbeginVerdicts, List.tail_drop]

/-- An attempt from the start. -/
theorem Writing.attempted (h : Writing inside a₀ path e row k a)
    (hstart : inside = false → a.connection.committed = a₀.connection.committed) :
    Attempted (inside || decide (a.connection.verdict = .ok)) a₀ path e row a := by
  obtain ⟨hnamed, hstmt, hverdicts⟩ := begin_spec h.toNamed hstart
  have hwriting : Writing (inside || decide (a.connection.verdict = .ok)) a₀ path e
      (row || decide (a.connection.verdicts.getD 1 .ok = .ok)) 0
      a.stepBegin.2.stepInsertFilename.2 := by
    refine { hnamed with filled := fun i hi => absurd hi (Nat.not_lt_zero i), contents := ?_, ready := ?_ }
    · rw [hstmt]
      exact h.contents
    · rw [hstmt]
      exact h.ready
  have hspec := insertChunks_spec e.chunks List.drop_zero (Nat.zero_le _) hwriting
  rw [hverdicts] at hspec
  exact hspec

/-- An attempt of the same write after one that is stuck. The chunk at which it was stuck is inserted
first, in place of the first one, which has been inserted before. -/
theorem Stuck.attempted (h : Stuck true a₀ path e row k a) : Attempted true a₀ path e row a := by
  obtain ⟨hnamed, hstmt, hverdicts⟩ := begin_spec h.toNamed nofun
  rw [Bool.true_or] at hnamed
  have hstuck : Stuck true a₀ path e (row || decide (a.connection.verdicts.getD 1 .ok = .ok)) k
      a.stepBegin.2.stepInsertFilename.2 := by
    refine { hnamed with contents := ?_, stepped := ?_ }
    · rw [hstmt]
      exact h.contents
    · rw [hstmt]
      exact h.stepped
  obtain ⟨chunk, hchunk, -⟩ := h.contents
  obtain ⟨hlt, -⟩ := List.getElem?_eq_some_iff.mp hchunk
  unfold Attempted inserts
  rw [← hverdicts]
  cases hchunks : e.chunks with
  | nil =>
    rw [hchunks] at hlt
    exact absurd hlt (Nat.not_lt_zero k)
  | cons first rest =>
    refine insertChunks_of_bound (hstuck.bindChunk first 0) fun hwriting => ?_
    -- The others follow as always.
    have hfirst : Writing true a₀ path e (row || decide (a.connection.verdicts.getD 1 .ok = .ok)) 1 _ :=
      { hwriting with filled := fun i hi => hwriting.filled i (by omega) }
    have hdrop : e.chunks.drop 1 = rest := by rw [hchunks, List.drop_one, List.tail_cons]
    exact insertChunks_spec rest hdrop (by rw [hchunks, List.length_cons]; omega) hfirst

/-- Whether the row is inserted now or later. -/
theorem rowInserted_iff (n : ℕ) (verdicts : List Verdict) :
    RowInserted n verdicts ↔ verdicts.getD 1 .ok = .ok ∨
      (verdicts.getD (n + 2) .ok = .busy ∧ RowInserted n (verdicts.drop (n + 3))) := by
  constructor
  · rintro (hnow | ⟨hbusy, hlater⟩)
    · exact Or.inl hnow
    · exact Or.inr ⟨hbusy, hlater⟩
  · rintro (hnow | ⟨hbusy, hlater⟩)
    · exact .now hnow
    · exact .later hbusy hlater

/-- Once there is a transaction, the attempts end with the work of `COMMIT`, and the row is inserted
if one of them has inserted it; or the write throws, with its transaction open. The induction is on
the fuel, and `row` says whether earlier attempts have inserted the row. -/
theorem immediateLoop_spec (fuel : ℕ) : ∀ {row : Bool} {a : SqliteArchive},
    a.connection.verdicts.length < fuel → Attempted true a₀ path e row a →
    ((immediateLoop e.chunks fuel a).1 = some .done ∧
        Completes e.chunks.length a.connection.verdicts ∧
        ∃ row', (row' = true ↔ row = true ∨ RowInserted e.chunks.length a.connection.verdicts) ∧
          Holding false a₀ path e row' e.chunks.length (immediateLoop e.chunks fuel a).2) ∨
      ((∃ v ∈ a.connection.verdicts, v ≠ .ok) ∧ ¬ Completes e.chunks.length a.connection.verdicts ∧
        (((immediateLoop e.chunks fuel a).1 = none ∧
            ∃ row' k, Stuck true a₀ path e row' k (immediateLoop e.chunks fuel a).2) ∨
          ((immediateLoop e.chunks fuel a).1 = some .error ∧
            ∃ row', Writing true a₀ path e row' e.chunks.length
              (immediateLoop e.chunks fuel a).2))) := by
  induction fuel with
  | zero => exact fun h => absurd h (Nat.not_lt_zero _)
  | succ fuel ih =>
    intro row a hfuel h
    rw [immediateLoop_succ]
    rcases h with ⟨hall, hok, hverdicts, hwriting⟩ | ⟨hstop, ⟨v, hv, hne⟩, k, hstuck⟩
    · rw [hall, Bool.not_true, if_neg (by decide)]
      rw [List.drop_drop, Nat.add_comm] at hverdicts
      have hlast := Connection.verdict_of_drop hverdicts
      obtain ⟨hendVerdicts, ⟨-, hcommit, hdone, hend⟩ | ⟨-, hcommit, hbusy, hend⟩ |
        ⟨herror, hcommit, hend⟩⟩ := stepEnd_spec hwriting
      · -- `COMMIT` does its work.
        rw [hdone, if_neg (by decide)]
        rw [hlast] at hcommit
        refine Or.inl ⟨rfl, .now hok hcommit, _, ?_, hend⟩
        rw [rowInserted_iff, hcommit, Bool.or_eq_true, decide_eq_true_eq]
        simp only [reduceCtorEq, false_and, or_false]
      · -- `COMMIT` finds the file locked, and there is another attempt.
        rw [hbusy, if_pos rfl]
        rw [hlast] at hcommit
        have hnext : (inserts e.chunks a).2.stepEnd.2.connection.verdicts =
            a.connection.verdicts.drop (e.chunks.length + 3) := by
          rw [hendVerdicts, hverdicts, List.tail_drop]
        have hshort : (inserts e.chunks a).2.stepEnd.2.connection.verdicts.length < fuel := by
          have hlong : e.chunks.length + 2 < a.connection.verdicts.length := by
            by_contra hge
            rw [List.getD_eq_default _ _ (by omega)] at hcommit
            cases hcommit
          rw [hnext, List.length_drop]
          omega
        have hagain := ih hshort (hend.attempted nofun)
        rw [hnext] at hagain
        rcases hagain with ⟨hdone, hcompletes, row', hrow', hholding⟩ | ⟨hagainst, hnot, hthrows⟩
        · -- The attempts behind this one complete.
          refine Or.inl ⟨hdone, .later hok hcommit hcompletes, row', ?_, hholding⟩
          rw [hrow', rowInserted_iff _ a.connection.verdicts, hcommit, Bool.or_eq_true,
            decide_eq_true_eq, or_assoc]
          simp only [true_and]
        · right
          obtain ⟨v, hv, hne⟩ := hagainst
          refine ⟨⟨v, List.mem_of_mem_drop hv, hne⟩, ?_, hthrows⟩
          rintro (⟨-, hnow⟩ | ⟨-, -, hlater⟩)
          · rw [hcommit] at hnow
            cases hnow
          · exact hnot hlater
      · -- `COMMIT` fails.
        rw [herror, if_neg (by decide)]
        have hcommit := hcommit rfl
        rw [hlast] at hcommit
        right
        refine ⟨exists_ne_ok_of_getD (by rw [hcommit]; decide), ?_, Or.inr ⟨rfl, _, hend⟩⟩
        rintro (⟨-, hnow⟩ | ⟨-, hbusy, -⟩)
        · rw [hcommit] at hnow
          cases hnow
        · rw [hcommit] at hbusy
          cases hbusy
    · -- A chunk is not inserted.
      rw [hstop, Bool.not_false, if_pos rfl]
      right
      refine ⟨⟨v, List.mem_of_mem_drop (List.mem_of_mem_take hv), hne⟩, ?_, Or.inl ⟨rfl, _, k, hstuck⟩⟩
      rintro (⟨hok, -⟩ | ⟨hok, -, -⟩)
      · exact hne (hok v hv)
      · exact hne (hok v hv)

/-- Without a transaction, `COMMIT` fails and the write throws. -/
theorem immediateLoop_of_not_begun (h : Writing false a₀ path e row k a)
    (hstart : a.connection.committed = a₀.connection.committed) (hbegin : a.connection.verdict ≠ .ok)
    (fuel : ℕ) : (immediateLoop e.chunks (fuel + 1) a).1 ≠ some .done := by
  rw [immediateLoop_succ]
  have hinserts := h.attempted fun _ => hstart
  rw [decide_eq_false hbegin] at hinserts
  rcases hinserts with ⟨hall, -, -, hwriting⟩ | ⟨hstop, -⟩
  · obtain ⟨-, ⟨habsurd, -⟩ | ⟨habsurd, -⟩ | ⟨herror, -⟩⟩ := stepEnd_spec hwriting
    · cases habsurd
    · cases habsurd
    · rw [hall, herror]
      exact nofun
  · rw [hstop]
    exact nofun

/-! ## Fuel

Every step uses up a verdict, if there is one, and is repeated only if there was one. So the loops
of `writePtr` end with another status than `busy`. -/

/-- The step uses up a verdict, and finds the file locked only by a verdict. -/
structure Consumes (step : SqliteArchive → Status × SqliteArchive) : Prop where
  verdicts : ∀ a, (step a).2.connection.verdicts = a.connection.verdicts.tail
  busy : ∀ a, (step a).1 = .busy → a.connection.verdicts ≠ []

theorem perform_consumes (work : Connection → Status × Connection)
    (hbusy : ∀ c, (work c).1 ≠ .busy) (hverdicts : ∀ c, (work c).2.verdicts = c.verdicts)
    (c : Connection) : (c.perform work).2.verdicts = c.verdicts.tail ∧
      ((c.perform work).1 = .busy → c.verdicts ≠ []) := by
  unfold Connection.perform
  split
  · exact ⟨hverdicts _, fun h => absurd h (hbusy _)⟩
  · next hverdict =>
    refine ⟨rfl, fun _ hnil => ?_⟩
    rw [Connection.verdict, hnil] at hverdict
    cases hverdict
  · exact ⟨rfl, nofun⟩

theorem consumes_stepBegin : Consumes stepBegin := by
  have hall (c : Connection) : c.begin.2.verdicts = c.verdicts.tail ∧
      (c.begin.1 = .busy → c.verdicts ≠ []) := by
    unfold Connection.begin
    split
    · exact ⟨rfl, nofun⟩
    · exact perform_consumes (fun c => (.done, { c with inTransaction := true })) (fun _ => nofun)
        (fun _ => rfl) c
  exact ⟨fun a => (hall a.connection).1, fun a => (hall a.connection).2⟩

theorem consumes_stepEnd : Consumes stepEnd := by
  have hall (c : Connection) : c.commit.2.verdicts = c.verdicts.tail ∧
      (c.commit.1 = .busy → c.verdicts ≠ []) := by
    unfold Connection.commit
    split
    · exact perform_consumes
        (fun c => (.done, { c with committed := c.working, inTransaction := false }))
        (fun _ => nofun) (fun _ => rfl) c
    · exact ⟨rfl, nofun⟩
  exact ⟨fun a => (hall a.connection).1, fun a => (hall a.connection).2⟩

theorem consumes_stepInsertFilename : Consumes stepInsertFilename := by
  have hall (bindings : FilenameBindings) (c : Connection) :=
    perform_consumes (Connection.insertFile bindings)
      (fun c => by cases bindings <;> exact nofun) (fun c => by cases bindings <;> rfl) c
  exact ⟨fun a => (hall _ a.connection).1, fun a => (hall _ a.connection).2⟩

theorem consumes_stepInsertContents : Consumes stepInsertContents := by
  have hall (bindings : ContentsBindings) (c : Connection) :=
    perform_consumes (Connection.insertContents bindings)
      (fun c => by unfold Connection.insertContents; split <;> exact nofun)
      (fun c => by unfold Connection.insertContents; split <;> rfl) c
  exact ⟨fun a => (hall _ a.connection).1, fun a => (hall _ a.connection).2⟩

/-- Repeating a step ends. -/
theorem repeatWhileBusy_ne_busy {step : SqliteArchive → Status × SqliteArchive} (hstep : Consumes step)
    (fuel : ℕ) : ∀ {a : SqliteArchive}, a.connection.verdicts.length < fuel →
      (repeatWhileBusy step fuel a).1 ≠ .busy := by
  induction fuel with
  | zero => exact fun h => absurd h (Nat.not_lt_zero _)
  | succ fuel ih =>
    intro a h
    unfold repeatWhileBusy
    simp only
    split
    · next hbusy =>
      have hpos := List.length_pos_of_ne_nil (hstep.busy a hbusy)
      apply ih
      rw [hstep.verdicts a, List.length_tail]
      omega
    · next hne => exact hne

theorem length_insertChunks (chunks : List Bytes) : ∀ (chunkidx : ℕ) (a : SqliteArchive),
    (insertChunks chunkidx chunks a).2.connection.verdicts.length ≤
      a.connection.verdicts.length := by
  induction chunks with
  | nil => exact fun _ _ => le_rfl
  | cons chunk rest ih =>
    intro chunkidx a
    have htail := consumes_stepInsertContents.verdicts (a.bindChunk chunk chunkidx)
    have hlength : (a.bindChunk chunk chunkidx).stepInsertContents.2.connection.verdicts.length ≤
        a.connection.verdicts.length := by
      rw [htail, List.length_tail]
      exact Nat.sub_le _ _
    unfold insertChunks
    simp only
    split
    · exact hlength
    · exact (ih _ _).trans hlength

/-- The attempts of an immediate write end. -/
theorem immediateLoop_ne_busy (chunks : List Bytes) (fuel : ℕ) : ∀ {a : SqliteArchive},
    a.connection.verdicts.length < fuel → (immediateLoop chunks fuel a).1 ≠ some .busy := by
  induction fuel with
  | zero => exact fun h => absurd h (Nat.not_lt_zero _)
  | succ fuel ih =>
    intro a h
    have hinserts : (inserts chunks a).2.connection.verdicts.length ≤
        a.connection.verdicts.length := by
      refine (length_insertChunks chunks 0 _).trans ?_
      rw [consumes_stepInsertFilename.verdicts, consumes_stepBegin.verdicts, List.length_tail,
        List.length_tail]
      omega
    rw [immediateLoop_succ]
    split
    · exact nofun
    · split
      · next hbusy =>
        have hpos := List.length_pos_of_ne_nil (consumes_stepEnd.busy _ hbusy)
        apply ih
        rw [consumes_stepEnd.verdicts, List.length_tail]
        omega
      · next hne => exact fun heq => hne (Option.some.inj heq)

/-! ## Whole writes -/

/-- A write to `path` that began with `a₀` has returned normally, with the tables `db`. -/
structure Written (a₀ : SqliteArchive) (path : Bytes) (db : Db) (a : SqliteArchive) : Prop
    extends Clean a db where
  mode : a.mode = a₀.mode
  fileNames : a.fileNames = a₀.fileNames ++ [path]
  select : a.selectContentsStmt = a₀.selectContentsStmt
  reset : a.resetStatements = a

/-- An immediate write that began with `a₀` has thrown. Its transaction is open, and its statements
are as they were at the chunk that was not inserted, or reset if it was `COMMIT` that failed. -/
def Failed (a₀ : SqliteArchive) (path : Bytes) (e : Encoded) (a : SqliteArchive) : Prop :=
  ∃ row k, Holding true a₀ path e row k a ∧
    (Stuck true a₀ path e row k a ∨
      (a.insertFilenameStmt.stepped = false ∧ a.insertContentsStmt.stepped = false))

/-- The path and the chunks of a write are still where an earlier call has had them. -/
def InMemory (memory : Memory) (path : Bytes) (e : Encoded) : Prop :=
  memory .path path = path ∧ ∀ chunk ∈ e.chunks, memory .contents chunk = chunk

/-- A write that has committed returns normally. -/
theorem finishWrite_done (h : Holding false a₀ path e row e.chunks.length a) (env : SqliteEnv) :
    (finishWrite path env .done a).2 = .done ∧
      Written a₀ path (a₀.connection.committed.attempt path e row) (finishWrite path env .done a).1 := by
  have hworking := h.partly.eq_attempt h.filled
  refine ⟨rfl, ?_⟩
  exact {
    committed := h.committed.trans hworking
    working := hworking
    inTransaction := h.inTransaction
    filename := rfl
    contents := rfl
    mode := h.mode
    fileNames := congrArg (· ++ [path]) h.fileNames
    select := h.select
    reset := rfl }

/-- What comes of an immediate write when its first attempt has opened a transaction. The attempt
need not be made from `a₀`. -/
theorem writePtr_of_attempted (lz4 : Lz4) {w : Write} (env : SqliteEnv) (hmode : a.mode ≠ .read)
    (hw : w.immediate = true)
    (h : Attempted true a₀ w.path (encode lz4 w) row ((a.meet env).bindRecord env.memory w.path (encode lz4 w))) :
    ((a.writePtr lz4 w env).2 = .done ∧ Completes (encode lz4 w).chunks.length env.verdicts ∧
        ∃ row', (row' = true ↔ row = true ∨ RowInserted (encode lz4 w).chunks.length env.verdicts) ∧
          Written a₀ w.path (a₀.connection.committed.attempt w.path (encode lz4 w) row')
            (a.writePtr lz4 w env).1) ∨
      ((∃ message, (a.writePtr lz4 w env).2 = .threw message) ∧ (∃ v ∈ env.verdicts, v ≠ .ok) ∧
        ¬ Completes (encode lz4 w).chunks.length env.verdicts ∧
        Failed a₀ w.path (encode lz4 w) (a.writePtr lz4 w env).1) := by
  unfold writePtr
  rw [if_neg hmode]
  simp only [hw, if_true]
  generalize hb : (a.meet env).bindRecord env.memory w.path (encode lz4 w) = b at h
  have hverdicts : b.connection.verdicts = env.verdicts := by
    rw [← hb]
    rfl
  have hloop := immediateLoop_spec b.fuel (Nat.lt_succ_self _) h
  rw [hverdicts] at hloop
  rcases hresult : immediateLoop (encode lz4 w).chunks b.fuel b with ⟨status, c⟩
  rw [hresult] at hloop
  rcases hloop with ⟨hdone, hcompletes, row', hrow', hholding⟩ | ⟨hagainst, hnot, ⟨hnone, row', k, hstuck⟩ |
    ⟨herror, row', hwriting⟩⟩
  · cases hdone
    obtain ⟨hanswer, hwritten⟩ := finishWrite_done hholding env
    exact Or.inl ⟨hanswer, hcompletes, row', hrow', hwritten⟩
  · cases hnone
    exact Or.inr ⟨⟨_, rfl⟩, hagainst, hnot, row', k, hstuck.toHolding, Or.inl hstuck⟩
  · cases herror
    refine Or.inr ⟨⟨_, rfl⟩, hagainst, hnot, row', _, { hwriting.toHolding with }, Or.inr ⟨rfl, rfl⟩⟩

/-- An immediate write either has committed its chunks, or it throws. -/
theorem writePtr_immediate (lz4 : Lz4) {w : Write} (env : SqliteEnv) (h : Clean a db)
    (hmode : a.mode ≠ .read) (hw : w.immediate = true) :
    ((a.writePtr lz4 w env).2 = .done ∧ Completes (encode lz4 w).chunks.length env.verdicts ∧
        env.verdicts.headD .ok = .ok ∧
        ∃ row, (row = true ↔ RowInserted (encode lz4 w).chunks.length env.verdicts) ∧
          Written a w.path (db.attempt w.path (encode lz4 w) row) (a.writePtr lz4 w env).1) ∨
      ((∃ message, (a.writePtr lz4 w env).2 = .threw message) ∧ (∃ v ∈ env.verdicts, v ≠ .ok) ∧
        (env.verdicts.headD .ok = .ok → ¬ Completes (encode lz4 w).chunks.length env.verdicts ∧
          Failed a w.path (encode lz4 w) (a.writePtr lz4 w env).1)) := by
  have hwriting := h.writing w.path (encode lz4 w) env
  by_cases hbegin : env.verdicts.headD .ok = .ok
  · have hattempted := hwriting.attempted fun _ => rfl
    have hverdict : ((a.meet env).bindRecord env.memory w.path (encode lz4 w)).connection.verdict = .ok := hbegin
    rw [decide_eq_true hverdict, Bool.false_or] at hattempted
    have houtcome := writePtr_of_attempted lz4 env hmode hw hattempted
    simp only [Bool.false_eq_true, false_or, h.committed] at houtcome
    rcases houtcome with ⟨hdone, hcompletes, hwritten⟩ | ⟨hthrew, hagainst, hnot, hfailed⟩
    · exact Or.inl ⟨hdone, hcompletes, hbegin, hwritten⟩
    · exact Or.inr ⟨hthrew, hagainst, fun _ => ⟨hnot, hfailed⟩⟩
  · -- There is no transaction.
    right
    have hagainst : ∃ v ∈ env.verdicts, v ≠ .ok := by
      rw [List.headD_eq_head?_getD, List.head?_eq_getElem?, ← List.getD_eq_getElem?_getD] at hbegin
      exact exists_ne_ok_of_getD hbegin
    refine ⟨?_, hagainst, fun hok => absurd hok hbegin⟩
    have hne := immediateLoop_of_not_begun hwriting rfl hbegin
      ((a.meet env).bindRecord env.memory w.path (encode lz4 w)).connection.verdicts.length
    unfold writePtr
    rw [if_neg hmode]
    simp only [hw, if_true, fuel]
    split
    · exact ⟨_, rfl⟩
    · next status c hresult =>
      rw [hresult] at hne
      unfold finishWrite
      rw [if_pos fun heq => hne (congrArg some heq)]
      exact ⟨_, rfl⟩

/-- The same write is made again after it has thrown, and its parameters are still in memory: it
starts where it has stopped. -/
theorem Failed.attempted (h : Failed a₀ path e a) {env : SqliteEnv} (hkept : InMemory env.memory path e) :
    ∃ row, Attempted true a₀ path e row ((a.meet env).bindRecord env.memory path e) := by
  obtain ⟨row, k, hholding, hstuck | ⟨hfilename, hcontents⟩⟩ := h
  · have hagain : Stuck true a₀ path e row k ((a.meet env).bindRecord env.memory path e) := { hstuck with
      filename := by
        -- Bound again or not, the row is the same.
        by_cases hstepped : a.insertFilenameStmt.stepped = true
        · simp only [bindRecord, meet, Statement.bind, hstepped, if_true, hstuck.filename]
          rw [FilenameBindings.now, Option.map_some, hkept.1]
        · simp only [bindRecord, meet, Statement.bind, hstepped]
          rfl
      contents := by
        obtain ⟨chunk, hchunk, hbind⟩ := hstuck.contents
        refine ⟨chunk, hchunk, ?_⟩
        simp only [bindRecord, meet, Statement.bind, hstuck.stepped, if_true, hbind]
        rw [ContentsBindings.now, Option.map_some, Option.map_some, hkept.1,
          hkept.2 chunk (List.mem_of_getElem? hchunk)]
      stepped := by
        simp only [bindRecord, meet, Statement.bind, hstuck.stepped, if_true] }
    exact ⟨row, hagain.attempted⟩
  · have hagain : Writing true a₀ path e row k ((a.meet env).bindRecord env.memory path e) := { hholding with
      filename := by
        simp only [bindRecord, meet, Statement.bind, hfilename]
        rfl
      contents := by
        simp only [bindRecord, meet, Statement.bind, hcontents]
        rfl
      ready := by simp only [bindRecord, meet, Statement.bind, hcontents] }
    exact ⟨row, hagain.attempted nofun⟩

/-! ## When every step does its work -/

/-- No verdict is against a step. -/
def AllOk (verdicts : List Verdict) : Prop := ∀ v ∈ verdicts, v = .ok

theorem AllOk.tail {verdicts : List Verdict} (h : AllOk verdicts) : AllOk verdicts.tail :=
  fun v hv => h v (List.mem_of_mem_tail hv)

theorem AllOk.getD {verdicts : List Verdict} (h : AllOk verdicts) (k : ℕ) :
    verdicts.getD k .ok = .ok := by
  by_contra hne
  obtain ⟨v, hv, hne⟩ := exists_ne_ok_of_getD hne
  exact hne (h v hv)

theorem AllOk.verdict {c : Connection} (h : AllOk c.verdicts) : c.verdict = .ok := by
  rw [Connection.verdict_of_drop List.drop_zero.symm]
  exact h.getD 0

/-- A step that does not find the file locked is not repeated. -/
theorem repeatWhileBusy_of_ne_busy {step : SqliteArchive → Status × SqliteArchive}
    (h : (step a).1 ≠ .busy) (fuel : ℕ) : repeatWhileBusy step (fuel + 1) a = step a := by
  rw [repeatWhileBusy]
  exact if_neg h

/-- Nor is one that is done. -/
theorem repeatWhileBusy_of_done {step : SqliteArchive → Status × SqliteArchive}
    (h : (step a).1 = .done) (fuel : ℕ) : repeatWhileBusy step (fuel + 1) a = step a := by
  apply repeatWhileBusy_of_ne_busy
  rw [h]
  decide

/-- The chunks of a bulk write. -/
theorem insertChunksBulk_spec (chunks : List Bytes) : ∀ {k : ℕ} {a : SqliteArchive},
    e.chunks.drop k = chunks → k ≤ e.chunks.length → Writing inside a₀ path e row k a →
    AllOk a.connection.verdicts →
    (insertChunksBulk k chunks .done a).1 = .done ∧
      Writing inside a₀ path e row e.chunks.length (insertChunksBulk k chunks .done a).2 := by
  induction chunks with
  | nil =>
    intro k a hdrop hk h _
    have hall : k = e.chunks.length := hk.antisymm (List.drop_eq_nil_iff.mp hdrop)
    exact ⟨rfl, hall ▸ h⟩
  | cons chunk rest ih =>
    intro k a hdrop hk h hok
    obtain ⟨hlt, hchunk, hrest⟩ := of_drop_eq_cons hdrop
    obtain ⟨hverdicts, ⟨-, hdone, hnext⟩ | ⟨hne, -⟩⟩ :=
      stepInsertContents_spec (h.bindChunk hchunk)
    · have htail : AllOk
          (a.bindChunk chunk k).stepInsertContents.2.resetInsertContents.connection.verdicts := by
        show AllOk (a.bindChunk chunk k).stepInsertContents.2.connection.verdicts
        rw [hverdicts]
        exact hok.tail
      have hloop : insertChunksBulk k (chunk :: rest) .done a = insertChunksBulk (k + 1) rest .done
          (a.bindChunk chunk k).stepInsertContents.2.resetInsertContents := by
        rw [insertChunksBulk]
        simp only [fuel, repeatWhileBusy_of_done hdone, hdone]
      rw [hloop]
      exact ih hrest hlt hnext htail
    · exact absurd (hok.verdict : a.connection.verdict = .ok) hne

/-- A write is stored, whatever its mode and whether it is immediate or not. -/
theorem writePtr_ok (lz4 : Lz4) {w : Write} {env : SqliteEnv} (h : Clean a db) (hmode : a.mode ≠ .read)
    (hok : AllOk env.verdicts) :
    (a.writePtr lz4 w env).2 = .done ∧
      Written a w.path (db.store w.path (encode lz4 w)) (a.writePtr lz4 w env).1 := by
  by_cases hw : w.immediate = true
  · rcases writePtr_immediate lz4 env h hmode hw with ⟨hdone, -, -, row, hrow, hwritten⟩ |
      ⟨-, ⟨v, hv, hne⟩, -⟩
    · rw [hrow.mpr (.now (hok.getD 1))] at hwritten
      exact ⟨hdone, hwritten⟩
    · exact absurd (hok v hv) hne
  · have hwriting := h.writing w.path (encode lz4 w) env
    unfold writePtr
    rw [if_neg hmode]
    simp only [hw]
    generalize hb : (a.meet env).bindRecord env.memory w.path (encode lz4 w) = b at hwriting
    have hverdicts : AllOk b.connection.verdicts := by
      rw [← hb]
      exact hok
    obtain ⟨hnamed, hfileVerdicts, hdone⟩ := stepInsertFilename_spec hwriting.toNamed
    have hdone := hdone hverdicts.verdict
    rw [decide_eq_true hverdicts.verdict, Bool.false_or] at hnamed
    have hfile : Writing false a w.path (encode lz4 w) true 0 b.stepInsertFilename.2 :=
      { hnamed with contents := hwriting.contents, ready := hwriting.ready }
    have hrest : AllOk b.stepInsertFilename.2.connection.verdicts := by
      rw [hfileVerdicts]
      exact hverdicts.tail
    obtain ⟨hchunks, hall⟩ := insertChunksBulk_spec (encode lz4 w).chunks List.drop_zero (Nat.zero_le _)
      hfile hrest
    simp only [fuel, repeatWhileBusy_of_done hdone, hdone, hchunks]
    rw [← h.committed]
    exact finishWrite_done hall.toHolding env

/-! ## Reads -/

/-- Fetching rows uses up verdicts and changes nothing else. -/
theorem fetch_frame {ρ : Type} (rows : List ρ) : ∀ c : Connection, ∃ verdicts,
    (Connection.fetch rows c).2 = { c with verdicts := verdicts } := by
  induction rows with
  | nil => exact fun c => ⟨c.verdicts.tail, rfl⟩
  | cons r rows ih =>
    intro c
    rw [Connection.fetch]
    split
    · obtain ⟨verdicts, hverdicts⟩ := ih c.rest
      exact ⟨verdicts, hverdicts⟩
    · exact ⟨c.verdicts.tail, rfl⟩

/-- How many rows are fetched depends on the verdicts only. -/
theorem fetch_congr {ρ : Type} (rows : List ρ) : ∀ {c c' : Connection}, c.verdicts = c'.verdicts →
    (Connection.fetch rows c).1 = (Connection.fetch rows c').1 := by
  induction rows with
  | nil => exact fun _ => rfl
  | cons r rows ih =>
    intro c c' h
    have hverdict : c.verdict = c'.verdict := congrArg (fun verdicts => verdicts.headD .ok) h
    have hrest : (Connection.fetch rows c.rest).1 = (Connection.fetch rows c'.rest).1 :=
      ih (congrArg List.tail h)
    rw [Connection.fetch, Connection.fetch, hverdict]
    split
    · rw [hrest]
    · rfl

/-- All rows that are left are fetched. -/
theorem fetch_ok {ρ : Type} (rows : List ρ) : ∀ {c : Connection}, AllOk c.verdicts →
    (Connection.fetch rows c).1 = rows := by
  induction rows with
  | nil =>
    intro c _
    rfl
  | cons r rows ih =>
    intro c hok
    have hrest : (Connection.fetch rows c.rest).1 = rows := ih hok.tail
    rw [Connection.fetch, if_pos hok.verdict, hrest]

/-- A read changes its statement only. -/
theorem readWithin_frame (lz4 : Lz4) (heap : ℕ) (a : SqliteArchive) (path : Bytes)
    (env : SqliteEnv) : ∃ verdicts stmt, (a.readWithin lz4 heap path env).1 = { a with
      connection := { a.connection with verdicts := verdicts }
      selectContentsStmt := stmt } := by
  unfold readWithin
  simp only
  split
  · exact ⟨_, _, rfl⟩
  · split
    · exact ⟨_, _, rfl⟩
    · next first rest _ =>
      obtain ⟨verdicts, hverdicts⟩ := fetch_frame rest (a.meet env).connection.rest
      split
      · exact ⟨verdicts, _, by rw [hverdicts]; rfl⟩
      · exact ⟨verdicts, _, by rw [hverdicts]; rfl⟩

/-- The same of a read with memory for every array. -/
theorem read_frame (lz4 : Lz4) (a : SqliteArchive) (path : Bytes) (env : SqliteEnv) :
    ∃ verdicts stmt, (a.read lz4 path env).1 = { a with
      connection := { a.connection with verdicts := verdicts }
      selectContentsStmt := stmt } := readWithin_frame lz4 arrayBound a path env

/-- The statement of a read is reset, unless the read throws. -/
theorem read_stepped (lz4 : Lz4) (a : SqliteArchive) (path : Bytes) (env : SqliteEnv)
    (h : ∀ message, (a.read lz4 path env).2 ≠ .threw message) :
    (a.read lz4 path env).1.selectContentsStmt.stepped = false := by
  revert h
  unfold read readWithin
  simp only
  split
  · exact fun _ => rfl
  · split
    · exact fun _ => rfl
    · split
      · exact fun h => absurd rfl (h _)
      · exact fun _ => rfl

/-- A read puts together the rows of its path. -/
theorem read_ok (lz4 : Lz4) {env : SqliteEnv} (path : Bytes) (hworking : a.connection.working = db)
    (hselect : a.selectContentsStmt.stepped = false) (hok : AllOk env.verdicts) :
    (a.read lz4 path env).2 = db.read lz4 env.fresh path := by
  have hverdict : (a.meet env).connection.verdict = .ok := AllOk.verdict hok
  have hbind : (a.meet env).selectContentsStmt.bind (Option.map (env.memory .selected))
      (fun _ => some path) = ⟨some path, false⟩ := by
    simp only [meet, Statement.bind, hselect]
    rfl
  have hrows : (a.meet env).connection.working.rows path = db.rows path := congrArg (Db.rows · path) hworking
  unfold read readWithin Db.read
  simp only [hbind, selectedRows, hrows, hverdict, ne_eq, not_true, if_false]
  cases db.rows path with
  | nil => rfl
  | cons first rest =>
    simp only
    rw [fetch_ok rest (c := (a.meet env).connection.rest) hok.tail]
    cases assemble lz4 arrayBound env.fresh path first.1.uncompressedSize first.1.compressLevel
      ((first :: rest).map Prod.snd)
    all_goals rfl

/-- A read leaves the archive between two calls. -/
theorem read_clean (lz4 : Lz4) (path : Bytes) (env : SqliteEnv) (h : Clean a db) :
    Clean (a.read lz4 path env).1 db := by
  obtain ⟨verdicts, stmt, heq⟩ := read_frame lz4 a path env
  rw [heq]
  exact { h with }

end SqliteArchive

end Libgetar
