import Libgetar.Sqlite.Literal
import Libgetar.Sqlite.Refine

/-!
# The result codes of a write

The part of `writePtr` that steps statements, as a function of the codes that `sqlite3_step` returns,
one after the other (`Session.writePtr`). It keeps one `status` for all statements, so a write that
returns normally knows of its last step only.

`Masks` says which codes are hidden that way: in an immediate write the code of the insert into
`file_list`, in a bulk write the code of every insert but the last one. A write that returns normally
has inserted all its rows exactly if the codes do not mask one (`inserted_iff`). The archive is a
session, with the codes that its steps return (`writePtr_codes`).
-/

namespace Libgetar

open Lib

namespace Sqlite

/-- The statements that a write steps. -/
inductive WriteStmt where
  | beginStmt
  | insertFilename
  | insertContents (chunkidx : ℕ)
  | endStmt
deriving DecidableEq

/-- A write under way. -/
structure Session where
  /-- What the steps to come return. -/
  codes : List Status
  /-- The statements that were stepped, with their codes, the oldest first. -/
  log : List (WriteStmt × Status) := []

namespace Session

/-! ## The loops -/

/-- `sqlite3_step`. When there is no code left, the call is still in this step. -/
def step (stmt : WriteStmt) (s : Session) : Option (Status × Session) :=
  match s.codes with
  | [] => none
  | status :: codes => some (status, ⟨codes, s.log ++ [(stmt, status)]⟩)

/-- `do {status = sqlite3_step(stmt);} while(status == SQLITE_BUSY);` -/
def repeatWhileBusy (stmt : WriteStmt) : ℕ → Session → Option (Status × Session)
  | 0, _ => none
  | fuel + 1, s => do
    let (status, s) ← s.step stmt
    if status = .busy then repeatWhileBusy stmt fuel s else some (status, s)

/-- A loop that repeats something uses up a code each time. -/
def fuel (s : Session) : ℕ := s.codes.length + 1

/-- The loop over the chunks of an immediate write, from `chunkidx` on. `false` stands for the throw
at a chunk. -/
def insertChunks : ℕ → ℕ → Session → Option (Bool × Session)
  | 0, _, s => some (true, s)
  | left + 1, chunkidx, s => do
    let (status, s) ← s.step (.insertContents chunkidx)
    if status ≠ .done then some (false, s) else insertChunks left (chunkidx + 1) s

/-- The loop of an immediate write. `none` as the status stands for the throw at a chunk. -/
def immediateLoop (chunkCount : ℕ) : ℕ → Session → Option (Option Status × Session)
  | 0, _ => none
  | fuel + 1, s => do
    let (_, s) ← s.step .beginStmt
    let (_, s) ← s.step .insertFilename
    let (inserted, s) ← insertChunks chunkCount 0 s
    if !inserted then some (none, s)
    else do
      let (status, s) ← s.step .endStmt
      if status = .busy then immediateLoop chunkCount fuel s else some (some status, s)

/-- The loop over the chunks of a bulk write, from `chunkidx` on, with the last status. -/
def insertChunksBulk : ℕ → ℕ → Status → Session → Option (Status × Session)
  | 0, _, status, s => some (status, s)
  | left + 1, chunkidx, _, s => do
    let (status, s) ← repeatWhileBusy (.insertContents chunkidx) s.fuel s
    insertChunksBulk left (chunkidx + 1) status s

/-- The statements of a write, and whether it returns normally. -/
def writePtr (immediate : Bool) (chunkCount : ℕ) (s : Session) : Option (Bool × Session) :=
  if immediate then do
    let (status, s) ← immediateLoop chunkCount s.fuel s
    some (decide (status = some .done), s)
  else do
    let (status, s) ← repeatWhileBusy .insertFilename s.fuel s
    let (status, s) ← insertChunksBulk chunkCount 0 status s
    some (decide (status = .done), s)

/-! ## What is promised, and what is masked -/

/-- The row of `file_list` and every chunk were inserted: their last step was done. An immediate write
ends with the commit. -/
structure Inserted (immediate : Bool) (chunkCount : ℕ) (s : Session) : Prop where
  filename : lastWrite s.log .insertFilename = some .done
  contents : ∀ chunkidx < chunkCount, lastWrite s.log (.insertContents chunkidx) = some .done
  committed : immediate = true → s.log.getLast? = some (.endStmt, .done)

/-- The codes of the attempts of an immediate write that commits, where `filename` is that of the
insert into `file_list` in the last attempt. -/
inductive Commits (chunkCount : ℕ) : List Status → Status → Prop where
  | now (begin filename : Status) (rest : List Status) : Commits chunkCount
      (begin :: filename :: (List.replicate chunkCount .done ++ .done :: rest)) filename
  | later (begin filename : Status) {rest : List Status} {filename' : Status} :
      Commits chunkCount rest filename' → Commits chunkCount
        (begin :: filename :: (List.replicate chunkCount .done ++ .busy :: rest)) filename'

/-- The codes that are not `SQLITE_BUSY`. -/
def unlocked (codes : List Status) : List Status := codes.filter (· ≠ .busy)

/-- A later success masks a failure: of the insert into `file_list` in the attempt that commits, or,
in a bulk write, of any insert in front of the last one. -/
def Masks (immediate : Bool) (chunkCount : ℕ) (codes : List Status) : Prop :=
  if immediate then ∃ filename, filename ≠ .done ∧ Commits chunkCount codes filename
  else (unlocked codes)[chunkCount]? = some .done ∧
    ∃ k < chunkCount, (unlocked codes)[k]? ≠ some .done

/-! ## Bulk writes -/

theorem step_cons (stmt : WriteStmt) (status : Status) (codes : List Status)
    (log : List (WriteStmt × Status)) :
    step stmt ⟨status :: codes, log⟩ = some (status, ⟨codes, log ++ [(stmt, status)]⟩) := rfl

theorem repeatWhileBusy_cons (stmt : WriteStmt) (fuel : ℕ) (status : Status) (codes : List Status)
    (log : List (WriteStmt × Status)) :
    repeatWhileBusy stmt (fuel + 1) ⟨status :: codes, log⟩ =
      if status = .busy then repeatWhileBusy stmt fuel ⟨codes, log ++ [(stmt, status)]⟩
      else some (status, ⟨codes, log ++ [(stmt, status)]⟩) := rfl

/-- A loop that repeats a step ends at the first code that is not `SQLITE_BUSY`, if there is one. -/
theorem repeatWhileBusy_spec (stmt : WriteStmt) : ∀ {fuel : ℕ} {s : Session}, s.codes.length < fuel →
    (unlocked s.codes = [] ∧ repeatWhileBusy stmt fuel s = none) ∨
      ∃ status s', unlocked s.codes = status :: unlocked s'.codes ∧
        repeatWhileBusy stmt fuel s = some (status, s') ∧
        ∀ stmt', lastWrite s'.log stmt' = if stmt' = stmt then some status else lastWrite s.log stmt'
  | 0, _, h => absurd h (Nat.not_lt_zero _)
  | fuel + 1, ⟨[], log⟩, _ => Or.inl ⟨rfl, rfl⟩
  | fuel + 1, ⟨status :: codes, log⟩, h => by
    have hfuel : codes.length < fuel := Nat.lt_of_succ_lt_succ h
    rw [repeatWhileBusy_cons]
    split
    · next hbusy =>
      -- The step is repeated, and its last code counts.
      have hunlocked : unlocked (status :: codes) = unlocked codes := by
        rw [hbusy]
        rfl
      rw [hunlocked]
      rcases repeatWhileBusy_spec stmt (s := ⟨codes, log ++ [(stmt, status)]⟩) hfuel with
        hnone | ⟨status', s', hcodes, hresult, hlog⟩
      · exact Or.inl hnone
      · refine Or.inr ⟨status', s', hcodes, hresult, fun stmt' => ?_⟩
        rw [hlog, lastWrite_concat]
        split
        · rfl
        · rfl
    · next hfree =>
      refine Or.inr ⟨status, _, ?_, rfl, fun stmt' => lastWrite_concat _ _ _⟩
      exact List.filter_cons_of_pos (by simpa using hfree)

theorem insertChunksBulk_succ (left chunkidx : ℕ) (status : Status) (s : Session) :
    insertChunksBulk (left + 1) chunkidx status s =
      (repeatWhileBusy (.insertContents chunkidx) (s.codes.length + 1) s).bind fun r =>
        insertChunksBulk left (chunkidx + 1) r.1 r.2 := rfl

/-- The chunks of a bulk write: the last code is that of the last insert, whichever it is. -/
theorem insertChunksBulk_spec : ∀ (left chunkidx : ℕ) (status : Status) (s : Session),
    ((status :: unlocked s.codes)[left]? = none ∧ insertChunksBulk left chunkidx status s = none) ∨
      ∃ status' s', (status :: unlocked s.codes)[left]? = some status' ∧
        insertChunksBulk left chunkidx status s = some (status', s') ∧
        (∀ k < left, lastWrite s'.log (.insertContents (chunkidx + k)) = (unlocked s.codes)[k]?) ∧
        ∀ stmt, (∀ k, chunkidx ≤ k → stmt ≠ .insertContents k) →
          lastWrite s'.log stmt = lastWrite s.log stmt
  | 0, _, status, s => Or.inr ⟨status, s, rfl, rfl, fun _ hk => absurd hk (Nat.not_lt_zero _),
      fun _ _ => rfl⟩
  | left + 1, chunkidx, status, s => by
    rw [insertChunksBulk_succ, List.getElem?_cons_succ]
    rcases repeatWhileBusy_spec (.insertContents chunkidx) (Nat.lt_add_one s.codes.length) with
      ⟨hempty, hnone⟩ | ⟨status₁, s₁, hcodes, hsome, hlog⟩
    · left
      rw [hnone, hempty]
      exact ⟨rfl, rfl⟩
    · rw [hsome, Option.bind_some, hcodes]
      rcases insertChunksBulk_spec left (chunkidx + 1) status₁ s₁ with
        hstuck | ⟨status', s', hstatus, hresult, hcontents, hother⟩
      · exact Or.inl hstuck
      · refine Or.inr ⟨status', s', hstatus, hresult, fun k hk => ?_, fun stmt hstmt => ?_⟩
        · cases k with
          | zero =>
            have hbefore : ∀ k, chunkidx + 1 ≤ k →
                WriteStmt.insertContents chunkidx ≠ .insertContents k := by
              rintro k hle heq
              cases heq
              omega
            rw [Nat.add_zero, hother _ hbefore, hlog, if_pos rfl, List.getElem?_cons_zero]
          | succ k =>
            have hindex : chunkidx + (k + 1) = chunkidx + 1 + k := by omega
            rw [hindex, hcontents k (by omega), List.getElem?_cons_succ]
        · rw [hother stmt fun k hle => hstmt k (by omega), hlog, if_neg (hstmt chunkidx le_rfl)]

/-! ## Immediate writes -/

theorem insertChunks_cons (left chunkidx : ℕ) (status : Status) (codes : List Status)
    (log : List (WriteStmt × Status)) :
    insertChunks (left + 1) chunkidx ⟨status :: codes, log⟩ =
      if status ≠ .done then some (false, ⟨codes, log ++ [(.insertContents chunkidx, status)]⟩)
      else insertChunks left (chunkidx + 1)
        ⟨codes, log ++ [(.insertContents chunkidx, status)]⟩ := rfl

/-- The chunks of an immediate write are inserted if all their codes say so. -/
theorem insertChunks_of_done : ∀ (left chunkidx : ℕ) (rest : List Status)
    (log : List (WriteStmt × Status)), ∃ log',
      insertChunks left chunkidx ⟨List.replicate left .done ++ rest, log⟩ = some (true, ⟨rest, log'⟩)
  | 0, _, rest, log => ⟨log, rfl⟩
  | left + 1, chunkidx, rest, log => by
    obtain ⟨log', hrest⟩ := insertChunks_of_done left (chunkidx + 1) rest
      (log ++ [(.insertContents chunkidx, .done)])
    exact ⟨log', hrest⟩

/-- Chunks of an immediate write that were inserted. -/
theorem done_of_insertChunks : ∀ {left chunkidx : ℕ} {s s' : Session},
    insertChunks left chunkidx s = some (true, s') →
      s.codes = List.replicate left .done ++ s'.codes ∧
        (∀ k < left, lastWrite s'.log (.insertContents (chunkidx + k)) = some .done) ∧
        ∀ stmt, (∀ k, chunkidx ≤ k → stmt ≠ .insertContents k) →
          lastWrite s'.log stmt = lastWrite s.log stmt
  | 0, _, _, _, h => by
    cases h
    exact ⟨rfl, fun _ hk => absurd hk (Nat.not_lt_zero _), fun _ _ => rfl⟩
  | left + 1, chunkidx, ⟨[], log⟩, s', h => by cases h
  | left + 1, chunkidx, ⟨status :: codes, log⟩, s', h => by
    rw [insertChunks_cons] at h
    split at h
    · cases h
    · next hdone =>
      obtain rfl := not_not.mp hdone
      obtain ⟨hcodes, hcontents, hother⟩ := done_of_insertChunks h
      refine ⟨congrArg (Status.done :: ·) hcodes, fun k hk => ?_, fun stmt hstmt => ?_⟩
      · cases k with
        | zero =>
          have hbefore : ∀ k, chunkidx + 1 ≤ k →
              WriteStmt.insertContents chunkidx ≠ .insertContents k := by
            rintro k hle heq
            cases heq
            omega
          rw [Nat.add_zero, hother _ hbefore, lastWrite_concat, if_pos rfl]
        | succ k =>
          have hindex : chunkidx + (k + 1) = chunkidx + 1 + k := by omega
          rw [hindex, hcontents k (by omega)]
      · rw [hother stmt fun k hle => hstmt k (by omega), lastWrite_concat,
          if_neg (hstmt chunkidx le_rfl)]

/-- An attempt of an immediate write. -/
theorem immediateLoop_succ (chunkCount fuel : ℕ) (begin filename : Status) (codes : List Status)
    (log : List (WriteStmt × Status)) :
    immediateLoop chunkCount (fuel + 1) ⟨begin :: filename :: codes, log⟩ =
      (insertChunks chunkCount 0
        ⟨codes, log ++ [(.beginStmt, begin)] ++ [(.insertFilename, filename)]⟩).bind fun r =>
          if !r.1 then some (none, r.2)
          else (r.2.step .endStmt).bind fun r =>
            if r.1 = .busy then immediateLoop chunkCount fuel r.2 else some (some r.1, r.2) := rfl

/-- With codes that commit, the loop ends with a commit, and the insert into `file_list` has last
returned the code of the last attempt. -/
theorem immediateLoop_of_commits {chunkCount : ℕ} {codes : List Status} {filename : Status}
    (h : Commits chunkCount codes filename) : ∀ {fuel : ℕ} (log : List (WriteStmt × Status)),
      codes.length < fuel →
        ∃ s', immediateLoop chunkCount fuel ⟨codes, log⟩ = some (some .done, s') ∧
          lastWrite s'.log .insertFilename = some filename := by
  induction h with
  | now begin filename rest =>
    rintro (- | fuel) log hfuel
    · exact absurd hfuel (Nat.not_lt_zero _)
    · obtain ⟨log', hchunks⟩ := insertChunks_of_done chunkCount 0 (.done :: rest)
        (log ++ [(.beginStmt, begin)] ++ [(.insertFilename, filename)])
      obtain ⟨-, -, hother⟩ := done_of_insertChunks hchunks
      refine ⟨⟨rest, log' ++ [(.endStmt, .done)]⟩, ?_, ?_⟩
      · rw [immediateLoop_succ, hchunks]
        rfl
      · rw [lastWrite_concat, if_neg nofun, hother .insertFilename fun _ _ => nofun, lastWrite_concat,
          if_pos rfl]
  | later begin filename _ ih =>
    rintro (- | fuel) log hfuel
    · exact absurd hfuel (Nat.not_lt_zero _)
    · rename_i rest _ _
      obtain ⟨log', hchunks⟩ := insertChunks_of_done chunkCount 0 (.busy :: rest)
        (log ++ [(.beginStmt, begin)] ++ [(.insertFilename, filename)])
      obtain ⟨s', hrest, hlast⟩ := @ih fuel (log' ++ [(.endStmt, .busy)]) (by
        simp only [List.length_cons, List.length_append] at hfuel
        omega)
      refine ⟨s', ?_, hlast⟩
      rw [immediateLoop_succ, hchunks]
      exact hrest

/-- A loop that ends with a commit has codes that commit, and all chunks were inserted. -/
theorem commits_of_immediateLoop {chunkCount : ℕ} : ∀ {fuel : ℕ} {s s' : Session},
    immediateLoop chunkCount fuel s = some (some .done, s') → ∃ filename,
      Commits chunkCount s.codes filename ∧ lastWrite s'.log .insertFilename = some filename ∧
        (∀ k < chunkCount, lastWrite s'.log (.insertContents k) = some .done) ∧
        s'.log.getLast? = some (.endStmt, .done)
  | 0, _, _, h => by cases h
  | fuel + 1, ⟨[], log⟩, _, h => by cases h
  | fuel + 1, ⟨[begin], log⟩, _, h => by cases h
  | fuel + 1, ⟨begin :: filename :: codes, log⟩, s', h => by
    rw [immediateLoop_succ] at h
    obtain ⟨⟨inserted, s₁⟩, hchunks, h⟩ := Option.bind_eq_some_iff.mp h
    cases inserted with
    | false => cases h
    | true =>
      obtain ⟨hcodes, hcontents, hother⟩ := done_of_insertChunks hchunks
      obtain ⟨rest, log₁⟩ := s₁
      cases rest with
      | nil => cases h
      | cons status rest =>
        have hsplit : codes = List.replicate chunkCount .done ++ status :: rest := hcodes
        change (if status = .busy then
            immediateLoop chunkCount fuel ⟨rest, log₁ ++ [(.endStmt, status)]⟩
          else some (some status, ⟨rest, log₁ ++ [(.endStmt, status)]⟩)) = _ at h
        split at h
        · next hbusy =>
          -- The attempt is repeated: only the last one counts.
          obtain ⟨filename', hcommits, hlast⟩ := commits_of_immediateLoop h
          refine ⟨filename', ?_, hlast⟩
          rw [hsplit, hbusy]
          exact .later begin filename hcommits
        · -- This attempt is the last one.
          cases h
          refine ⟨filename, ?_, ?_, fun k hk => ?_, List.getLast?_concat⟩
          · rw [hsplit]
            exact .now begin filename rest
          · rw [lastWrite_concat, if_neg nofun, hother .insertFilename fun _ _ => nofun, lastWrite_concat,
              if_pos rfl]
          · have hdone := hcontents k hk
            rw [Nat.zero_add] at hdone
            rw [lastWrite_concat, if_neg nofun]
            exact hdone

/-! ## What a normal return says -/

/-- An immediate write returns normally when its loop ends with a commit. -/
theorem writePtr_immediate_iff (chunkCount : ℕ) (codes : List Status) (s : Session) :
    writePtr true chunkCount ⟨codes, []⟩ = some (true, s) ↔
      immediateLoop chunkCount (codes.length + 1) ⟨codes, []⟩ = some (some .done, s) := by
  have hwrite : writePtr true chunkCount ⟨codes, []⟩ =
      (immediateLoop chunkCount (codes.length + 1) ⟨codes, []⟩).bind fun r =>
        some (decide (r.1 = some .done), r.2) := rfl
  rw [hwrite, Option.bind_eq_some_iff]
  constructor
  · rintro ⟨⟨status, s'⟩, hloop, hend⟩
    obtain ⟨hdone, rfl⟩ := Prod.mk.inj (Option.some.inj hend)
    have hdone' : status = some .done := of_decide_eq_true hdone
    rw [hloop, hdone']
  · exact fun hloop => ⟨_, hloop, rfl⟩

/-- A bulk write returns when there is a code for each of its inserts, normally when the last of them
is done. -/
theorem writePtr_bulk_spec (chunkCount : ℕ) (codes : List Status) :
    ((unlocked codes)[chunkCount]? = none ∧ writePtr false chunkCount ⟨codes, []⟩ = none) ∨
      ∃ status s, (unlocked codes)[chunkCount]? = some status ∧
        writePtr false chunkCount ⟨codes, []⟩ = some (decide (status = .done), s) ∧
        lastWrite s.log .insertFilename = (unlocked codes)[0]? ∧
        ∀ k < chunkCount, lastWrite s.log (.insertContents k) = (unlocked codes)[k + 1]? := by
  have hwrite : writePtr false chunkCount ⟨codes, []⟩ =
      (repeatWhileBusy .insertFilename (codes.length + 1) ⟨codes, []⟩).bind fun r =>
        (insertChunksBulk chunkCount 0 r.1 r.2).bind fun r => some (decide (r.1 = .done), r.2) := rfl
  rw [hwrite]
  rcases repeatWhileBusy_spec .insertFilename (Nat.lt_succ_self codes.length : codes.length < _)
      (s := ⟨codes, []⟩) with ⟨hempty, hnone⟩ | ⟨status₁, s₁, hcodes, hsome, hlog⟩
  · left
    rw [hnone, show unlocked codes = [] from hempty]
    exact ⟨rfl, rfl⟩
  · rw [hsome, Option.bind_some, show unlocked codes = _ from hcodes]
    rcases insertChunksBulk_spec chunkCount 0 status₁ s₁ with
      ⟨hshort, hnone⟩ | ⟨status, s, hstatus, hresult, hcontents, hother⟩
    · left
      rw [hnone]
      exact ⟨hshort, rfl⟩
    · refine Or.inr ⟨status, s, hstatus, by rw [hresult]; rfl, ?_, fun k hk => ?_⟩
      · rw [hother .insertFilename fun _ _ => nofun, hlog, if_pos rfl, List.getElem?_cons_zero]
      · have hchunk := hcontents k hk
        rw [Nat.zero_add] at hchunk
        rw [hchunk, List.getElem?_cons_succ]

/-- A write that returns normally has inserted all its rows, and has committed if it is immediate,
exactly if no failure is masked. -/
theorem inserted_iff (immediate : Bool) (chunkCount : ℕ) (codes : List Status) :
    (∀ s, writePtr immediate chunkCount ⟨codes, []⟩ = some (true, s) →
        Inserted immediate chunkCount s) ↔ ¬Masks immediate chunkCount codes := by
  cases immediate with
  | true =>
    -- The code of the insert into `file_list` is never looked at.
    constructor
    · rintro hall ⟨filename, hmasked, hcommits⟩
      obtain ⟨s, hloop, hlast⟩ := immediateLoop_of_commits hcommits [] (Nat.lt_succ_self _)
      have hinserted := hall s ((writePtr_immediate_iff chunkCount codes s).mpr hloop)
      exact hmasked (Option.some.inj (hlast.symm.trans hinserted.filename))
    · intro hclear s hs
      obtain ⟨filename, hcommits, hlast, hcontents, hend⟩ :=
        commits_of_immediateLoop ((writePtr_immediate_iff chunkCount codes s).mp hs)
      have hdone : filename = .done := by
        by_contra hne
        exact hclear ⟨filename, hne, hcommits⟩
      exact ⟨hdone ▸ hlast, hcontents, fun _ => hend⟩
  | false =>
    -- Only the code of the last insert decides.
    rcases writePtr_bulk_spec chunkCount codes with
      ⟨hshort, hnone⟩ | ⟨status, s, hstatus, hsome, hfilename, hcontents⟩
    · -- The write has not come to its last step.
      constructor
      · rintro - ⟨hdone, -⟩
        rw [hshort] at hdone
        cases hdone
      · intro _ s hs
        rw [hnone] at hs
        cases hs
    · constructor
      · rintro hall ⟨hdone, k, hk, hmasked⟩
        have hnormal : writePtr false chunkCount ⟨codes, []⟩ = some (true, s) := by
          rw [hsome, Option.some.inj (hstatus.symm.trans hdone)]
          rfl
        have hinserted := hall s hnormal
        cases k with
        | zero => exact hmasked (hfilename.symm.trans hinserted.filename)
        | succ k =>
          have hlt : k < chunkCount := by omega
          exact hmasked ((hcontents k hlt).symm.trans (hinserted.contents k hlt))
      · intro hclear s' hs'
        rw [hsome] at hs'
        obtain ⟨hstatusDone, rfl⟩ := Prod.mk.inj (Option.some.inj hs')
        obtain rfl : status = .done := of_decide_eq_true hstatusDone
        have hdone : ∀ k ≤ chunkCount, (unlocked codes)[k]? = some .done := by
          intro k hk
          by_contra hne
          rcases Nat.lt_or_eq_of_le hk with hlt | rfl
          · exact hclear ⟨hstatus, k, hlt, hne⟩
          · exact hne hstatus
        refine ⟨hfilename.trans (hdone 0 (Nat.zero_le _)), fun k hk => ?_, fun h => by cases h⟩
        exact (hcontents k hk).trans (hdone (k + 1) hk)

/-- The failure of the insert into `file_list`, between a `BEGIN` and a `COMMIT` that succeed, after
which the record cannot be read, and the failure of the first of two chunks of a bulk write. -/
theorem inserted_counterexample :
    (writePtr true 1 ⟨[.done, .error, .done, .done], []⟩).map (fun r =>
      (r.1, lastWrite r.2.log .insertFilename)) = some (true, some .error) ∧
    (∃ a, SqliteArchive.ofFile .write none = some a ∧ outputs (SqliteArchive.step literalLz4) a
      [(.writePtr ⟨[97], [120], .noCompress, true⟩, { verdicts := [.ok, .error, .ok, .ok] }),
        (.read [97], {})] = [.done, .array none]) ∧
    (writePtr false 2 ⟨[.done, .error, .done], []⟩).map (fun r =>
      (r.1, lastWrite r.2.log (.insertContents 0))) = some (true, some .error) :=
  ⟨by decide, ⟨_, rfl, by decide +kernel⟩, by decide⟩

end Session

end Sqlite

namespace SqliteArchive

open Sqlite

/-! ## The archive as a session -/

/-- The codes of a step that is repeated. -/
def repeatCodes (step : SqliteArchive → Status × SqliteArchive) : ℕ → SqliteArchive → List Status
  | 0, _ => []
  | fuel + 1, a =>
    (step a).1 :: if (step a).1 = .busy then repeatCodes step fuel (step a).2 else []

/-- The codes of the chunks of an immediate write. -/
def chunkCodes : ℕ → List Bytes → SqliteArchive → List Status
  | _, [], _ => []
  | chunkidx, chunk :: rest, a =>
    let (status, a) := (a.bindChunk chunk chunkidx).stepInsertContents
    status :: if status ≠ .done then [] else chunkCodes (chunkidx + 1) rest a.resetInsertContents

/-- The codes of the attempts of an immediate write. -/
def immediateCodes (chunks : List Bytes) : ℕ → SqliteArchive → List Status
  | 0, _ => []
  | fuel + 1, a =>
    let (begin, a) := a.stepBegin
    let (filename, a) := a.stepInsertFilename
    let (inserted, a') := insertChunks 0 chunks a
    begin :: filename :: (chunkCodes 0 chunks a ++
      if !inserted then []
      else
        let (status, a) := a'.stepEnd
        status :: if status = .busy then immediateCodes chunks fuel a else [])

/-- The codes of the chunks of a bulk write. -/
def bulkCodes : ℕ → List Bytes → SqliteArchive → List Status
  | _, [], _ => []
  | chunkidx, chunk :: rest, a =>
    let a := a.bindChunk chunk chunkidx
    repeatCodes stepInsertContents a.fuel a ++
      bulkCodes (chunkidx + 1) rest (repeatWhileBusy stepInsertContents a.fuel a).2.resetInsertContents

/-- The codes that the steps of a write return. -/
def writeCodes (lz4 : Lz4) (a : SqliteArchive) (w : Write) (env : SqliteEnv) : List Status :=
  let e := encode lz4 w
  let a := (a.meet env).bindRecord env.memory w.path e
  if w.immediate then immediateCodes e.chunks a.fuel a
  else repeatCodes stepInsertFilename a.fuel a ++
    bulkCodes 0 e.chunks (repeatWhileBusy stepInsertFilename a.fuel a).2

/-- A step that is repeated goes through its codes. -/
theorem repeatWhileBusy_codes {step : SqliteArchive → Status × SqliteArchive} (stmt : WriteStmt)
    (rest : List Status) : ∀ {fuel fuel' : ℕ} {a : SqliteArchive} (log : List (WriteStmt × Status)),
      (repeatWhileBusy step fuel a).1 ≠ .busy → (repeatCodes step fuel a ++ rest).length < fuel' →
        ∃ log', Session.repeatWhileBusy stmt fuel' ⟨repeatCodes step fuel a ++ rest, log⟩ =
          some ((repeatWhileBusy step fuel a).1, ⟨rest, log'⟩)
  | 0, _, _, _, h, _ => absurd rfl h
  | _ + 1, 0, _, _, _, h => absurd h (Nat.not_lt_zero _)
  | fuel + 1, fuel' + 1, a, log, h, hfuel => by
    rw [repeatWhileBusy] at h ⊢
    rw [repeatCodes] at hfuel ⊢
    rw [List.cons_append, Session.repeatWhileBusy_cons]
    rw [List.cons_append, List.length_cons] at hfuel
    simp only at h ⊢
    by_cases hbusy : (step a).1 = .busy
    · rw [if_pos hbusy] at h hfuel ⊢
      rw [if_pos hbusy, if_pos hbusy]
      exact repeatWhileBusy_codes stmt rest _ h (Nat.lt_of_succ_lt_succ hfuel)
    · rw [if_neg hbusy, if_neg hbusy, if_neg hbusy]
      exact ⟨_, rfl⟩

/-- The chunks of an immediate write go through their codes. -/
theorem insertChunks_codes (rest : List Status) : ∀ (chunks : List Bytes) (chunkidx : ℕ)
    (a : SqliteArchive) (log : List (WriteStmt × Status)), ∃ log',
      Session.insertChunks chunks.length chunkidx ⟨chunkCodes chunkidx chunks a ++ rest, log⟩ =
        some ((insertChunks chunkidx chunks a).1, ⟨rest, log'⟩)
  | [], _, _, log => ⟨log, rfl⟩
  | chunk :: chunks, chunkidx, a, log => by
    rw [insertChunks, chunkCodes, List.length_cons]
    simp only
    rw [List.cons_append, Session.insertChunks_cons]
    by_cases hdone : (a.bindChunk chunk chunkidx).stepInsertContents.1 = .done
    · rw [if_neg (not_not.mpr hdone), if_neg (not_not.mpr hdone), if_neg (not_not.mpr hdone)]
      exact insertChunks_codes rest chunks (chunkidx + 1) _ _
    · rw [if_pos hdone, if_pos hdone, if_pos hdone]
      exact ⟨_, rfl⟩

/-- The chunks of a bulk write go through their codes. -/
theorem insertChunksBulk_codes : ∀ (chunks : List Bytes) (chunkidx : ℕ) (status : Status)
    (a : SqliteArchive) (log : List (WriteStmt × Status)), ∃ log',
      Session.insertChunksBulk chunks.length chunkidx status ⟨bulkCodes chunkidx chunks a, log⟩ =
        some ((insertChunksBulk chunkidx chunks status a).1, ⟨[], log'⟩)
  | [], _, _, _, log => ⟨log, rfl⟩
  | chunk :: chunks, chunkidx, status, a, log => by
    have hfree := repeatWhileBusy_ne_busy consumes_stepInsertContents _
      (Nat.lt_succ_self (a.bindChunk chunk chunkidx).connection.verdicts.length)
    obtain ⟨log₁, hstep⟩ := repeatWhileBusy_codes (.insertContents chunkidx)
      (bulkCodes (chunkidx + 1) chunks (repeatWhileBusy stepInsertContents
        (a.bindChunk chunk chunkidx).fuel (a.bindChunk chunk chunkidx)).2.resetInsertContents)
      log hfree (Nat.lt_succ_self _)
    obtain ⟨log₂, hrest⟩ := insertChunksBulk_codes chunks (chunkidx + 1)
      (repeatWhileBusy stepInsertContents (a.bindChunk chunk chunkidx).fuel
        (a.bindChunk chunk chunkidx)).1
      (repeatWhileBusy stepInsertContents (a.bindChunk chunk chunkidx).fuel
        (a.bindChunk chunk chunkidx)).2.resetInsertContents log₁
    refine ⟨log₂, ?_⟩
    rw [List.length_cons, Session.insertChunksBulk_succ]
    exact Option.bind_eq_some_iff.mpr ⟨_, hstep, hrest⟩

/-- An attempt, with its codes. -/
theorem immediateCodes_succ (chunks : List Bytes) (fuel : ℕ) (a : SqliteArchive) :
    immediateCodes chunks (fuel + 1) a = a.stepBegin.1 :: a.stepBegin.2.stepInsertFilename.1 ::
      (chunkCodes 0 chunks a.stepBegin.2.stepInsertFilename.2 ++
        if !(inserts chunks a).1 then []
        else (inserts chunks a).2.stepEnd.1 :: if (inserts chunks a).2.stepEnd.1 = .busy then
          immediateCodes chunks fuel (inserts chunks a).2.stepEnd.2 else []) := rfl

/-- The attempts of an immediate write go through their codes. -/
theorem immediateLoop_codes (chunks : List Bytes) : ∀ {fuel fuel' : ℕ} {a : SqliteArchive}
    (log : List (WriteStmt × Status)), (immediateLoop chunks fuel a).1 ≠ some .busy →
      (immediateCodes chunks fuel a).length < fuel' → ∃ s,
        Session.immediateLoop chunks.length fuel' ⟨immediateCodes chunks fuel a, log⟩ =
          some ((immediateLoop chunks fuel a).1, s)
  | 0, _, _, _, h, _ => absurd rfl h
  | _ + 1, 0, _, _, _, h => absurd h (Nat.not_lt_zero _)
  | fuel + 1, fuel' + 1, a, log, h, hfuel => by
    rw [immediateLoop_succ] at h ⊢
    rw [immediateCodes_succ] at hfuel ⊢
    rw [Session.immediateLoop_succ]
    obtain ⟨log₁, hchunks⟩ := insertChunks_codes
      (if !(inserts chunks a).1 then []
        else (inserts chunks a).2.stepEnd.1 :: if (inserts chunks a).2.stepEnd.1 = .busy then
          immediateCodes chunks fuel (inserts chunks a).2.stepEnd.2 else [])
      chunks 0 a.stepBegin.2.stepInsertFilename.2
      (log ++ [(.beginStmt, a.stepBegin.1)] ++
        [(.insertFilename, a.stepBegin.2.stepInsertFilename.1)])
    rw [hchunks, Option.bind_some]
    by_cases hinserted : (inserts chunks a).1 = true
    · have hchunked : (insertChunks 0 chunks a.stepBegin.2.stepInsertFilename.2).1 = true := hinserted
      simp only [hinserted, hchunked, Bool.not_true, Bool.false_eq_true, if_false] at h hfuel ⊢
      rw [Session.step_cons, Option.bind_some]
      by_cases hbusy : (inserts chunks a).2.stepEnd.1 = .busy
      · simp only [hbusy, if_true, List.length_cons, List.length_append] at h hfuel ⊢
        exact immediateLoop_codes chunks _ h (by omega)
      · simp only [hbusy, if_false]
        exact ⟨_, rfl⟩
    · have hstopped : (insertChunks 0 chunks a.stepBegin.2.stepInsertFilename.2).1 = false :=
        Bool.eq_false_iff.mpr hinserted
      simp only [hinserted, hstopped, Bool.not_false, if_true]
      exact ⟨_, rfl⟩

/-- What is behind the loops looks at the last status only. -/
theorem finishWrite_done_iff (path : Bytes) (env : SqliteEnv) (status : Status) (a : SqliteArchive) :
    (finishWrite path env status a).2 = .done ↔ status = .done := by
  unfold finishWrite
  simp only
  split
  · next hne => simp [hne]
  · next hdone => simp [not_not.mp hdone]

/-- A write of the archive is a session with the codes that its steps return. -/
theorem writePtr_codes (lz4 : Lz4) {a : SqliteArchive} (hmode : a.mode ≠ .read) (w : Write)
    (env : SqliteEnv) : ∃ s,
      Session.writePtr w.immediate (encode lz4 w).chunks.length ⟨writeCodes lz4 a w env, []⟩ =
        some (decide ((a.writePtr lz4 w env).2 = .done), s) := by
  unfold writePtr writeCodes Session.writePtr
  rw [if_neg hmode]
  simp only
  let bound : SqliteArchive := (a.meet env).bindRecord env.memory w.path (encode lz4 w)
  by_cases himmediate : w.immediate = true
  · rw [if_pos himmediate, if_pos himmediate, if_pos himmediate]
    have hfree := immediateLoop_ne_busy (encode lz4 w).chunks _
      (Nat.lt_succ_self bound.connection.verdicts.length)
    obtain ⟨s, hloop⟩ := immediateLoop_codes (encode lz4 w).chunks [] hfree (Nat.lt_succ_self _)
    refine ⟨s, Option.bind_eq_some_iff.mpr ⟨_, hloop, ?_⟩⟩
    refine congrArg (fun normal => some (normal, s)) (decide_eq_decide.mpr ?_)
    change (immediateLoop (encode lz4 w).chunks bound.fuel bound).1 = some .done ↔ _
    split
    · next heq => simp [bound, heq]
    · next status a' heq => simp [bound, heq, finishWrite_done_iff]
  · rw [if_neg himmediate, if_neg himmediate, if_neg himmediate]
    have hfree := repeatWhileBusy_ne_busy consumes_stepInsertFilename _
      (Nat.lt_succ_self bound.connection.verdicts.length)
    obtain ⟨log₁, hfilename⟩ := repeatWhileBusy_codes .insertFilename
      (bulkCodes 0 (encode lz4 w).chunks (repeatWhileBusy stepInsertFilename bound.fuel bound).2)
      [] hfree (Nat.lt_succ_self _)
    obtain ⟨log₂, hchunks⟩ := insertChunksBulk_codes (encode lz4 w).chunks 0
      (repeatWhileBusy stepInsertFilename bound.fuel bound).1
      (repeatWhileBusy stepInsertFilename bound.fuel bound).2 log₁
    refine ⟨⟨[], log₂⟩, Option.bind_eq_some_iff.mpr ⟨_, hfilename, ?_⟩⟩
    refine Option.bind_eq_some_iff.mpr ⟨_, hchunks, ?_⟩
    simp only [finishWrite_done_iff]
    rfl

end SqliteArchive

end Libgetar
