import Libgetar.Sqlite.Deadlock
import Libgetar.Sqlite.Programs

/-!
# Writes of several programs, one after the other

Programs that share a file take turns, one statement at a time. There is one writer at a time
(`oneWriter_lockAfter`), so what one of them commits does not get between the statements of another
one: the file holds blocks of writes (`serializable`). No write is lost and none is stored twice, since
the blocks of a program are its writes up to those that wait.

A direct write throws when it meets a lock at its first chunk, and nothing is said about what comes
behind that.
-/

namespace Libgetar

open Lib Sqlite SqliteArchive

namespace SharedFile

variable {ι : Type} [Fintype ι] [DecidableEq ι] {lz4 : Lz4} {W : Set (Bytes × Bytes)} {log₀ : Store}
  {s : SharedFile ι} {x : Turn ι} {p : Process} {t : Task} {op : WriterOp} {calls : List WriterOp}
  {blocks : List (ι × Store)}

/-- What a statement does to the locks. -/
theorem lockStep (s : SharedFile ι) (x : Turn ι) (p : Process) (t : Task) :
    Process.LockStep t p (s.locks x.process) (s.lockAfter x p t) (s.granted x p t) where
  nothing hasks := by
    refine ⟨?_, ?_⟩
    · unfold granted
      rw [hasks]
      rfl
    · simp only [lockAfter, hasks]
  write hasks hin := by
    have hgrants : s.granted x p t = s.locks.mayWrite x.process := by
      unfold granted
      rw [hasks, Locks.grants, hin, Bool.true_or, Bool.and_true]
    constructor
    · intro hgranted
      simp only [lockAfter, hasks, hgranted, hin, if_true]
      exact Lock.writes_write _ _
    · -- The writer is refused no insert.
      intro hrefused
      refine ⟨by simp only [lockAfter, hasks, hrefused], Bool.eq_false_of_not_eq_true fun hwrites => ?_⟩
      rw [hgrants, Locks.mayWrite_iff.mpr (Or.inl hwrites)] at hrefused
      cases hrefused
  commit hasks := by
    constructor
    · intro hgranted
      refine ⟨?_, by simp only [lockAfter, hasks, hgranted]; rfl⟩
      unfold granted at hgranted
      rw [hasks] at hgranted
      have hidle := (Bool.and_eq_true_iff.mp (Bool.and_eq_true_iff.mp hgranted).2).1
      rwa [Bool.not_eq_true'] at hidle
    · intro hrefused
      simp only [lockAfter, hasks, hrefused]
      split
      · rfl
      · exact Lock.writes_wait _

/-- The file holds the blocks that the programs have committed, one after the other, and every program
has its durable writes in them, in its order. -/
structure Serial (lz4 : Lz4) (W : Set (Bytes × Bytes)) (log₀ : Store) (s : SharedFile ι)
    (blocks : List (ι × Store)) : Prop where
  oneWriter : s.locks.OneWriter
  holds : s.file.Holds lz4 (log₀ ++ blocks.flatMap Prod.snd)
  allowed : ∀ e ∈ log₀ ++ blocks.flatMap Prod.snd, e ∈ W
  process : ∀ i, Process.Fine lz4 W (log₀ ++ blocks.flatMap Prod.snd) s.file (s.locks i) (s.process i)
  durable : ∀ i, (s.process i).journal.durable = (blocks.filter fun b => b.1 = i).flatMap Prod.snd

omit [Fintype ι] in
/-- A program adds a block. -/
theorem Serial.moves (h : Serial lz4 W log₀ s blocks) {i : ι} (hp : p.journal = (s.process i).journal)
    {file' : Db} {lock' : Lock} {p' : Process} {block : Store}
    (hmoves : Process.Moves lz4 W (log₀ ++ blocks.flatMap Prod.snd) s.file (s.locks i) p file' lock' p'
      block) (hlocks : Locks.OneWriter (Function.update s.locks i lock')) :
    Serial lz4 W log₀ ⟨file', Function.update s.locks i lock', Function.update s.process i p'⟩
      (blocks ++ [(i, block)]) := by
  -- The new block is behind everything that is in the file.
  have hlog : log₀ ++ (blocks ++ [(i, block)]).flatMap Prod.snd =
      log₀ ++ blocks.flatMap Prod.snd ++ block := by
    rw [List.flatMap_append, List.flatMap_singleton, List.append_assoc]
  refine ⟨hlocks, ?_, ?_, fun j => ?_, fun j => ?_⟩
  · rw [hlog]
    exact hmoves.holds
  · rw [hlog]
    intro e he
    rcases List.mem_append.mp he with hold | hnew
    · exact h.allowed e hold
    · exact hmoves.allowed e hnew
  · rw [hlog]
    show Process.Fine _ _ _ _ (Function.update s.locks i lock' j) (Function.update s.process i p' j)
    rcases eq_or_ne j i with rfl | hj
    · rw [Function.update_self, Function.update_self]
      exact hmoves.fine
    · -- Another program has committed nothing, or waits.
      rw [Function.update_of_ne hj, Function.update_of_ne hj]
      cases hwrites : (s.locks i).writes with
      | false =>
        obtain ⟨rfl, rfl⟩ := hmoves.quiet hwrites
        rw [List.append_nil]
        exact h.process j
      | true =>
        have hwaits : (s.locks j).writes = false :=
          Bool.eq_false_of_not_eq_true fun hother => hj (h.oneWriter j i hother hwrites)
        exact (h.process j).of_waits hwaits _ _
  · rw [List.filter_append, List.flatMap_append]
    show (Function.update s.process i p' j).journal.durable = _
    rcases eq_or_ne j i with rfl | hj
    · rw [Function.update_self, hmoves.durable, hp, h.durable]
      simp
    · rw [Function.update_of_ne hj, h.durable]
      simp [hj.symm]

omit [Fintype ι] in
/-- A program that changes nothing in the file. -/
theorem Serial.updateProcess (h : Serial lz4 W log₀ s blocks) {i : ι}
    (hp : p.journal = (s.process i).journal) {p' : Process}
    (hfine : Process.Fine lz4 W (log₀ ++ blocks.flatMap Prod.snd) s.file (s.locks i) p')
    (hdurable : p'.journal.durable = p.journal.durable) :
    ∃ blocks, Serial lz4 W log₀ { s with process := Function.update s.process i p' } blocks := by
  have hnext := h.moves hp (Process.Fine.moves hfine h.holds hdurable rfl)
    (by rw [Function.update_eq_self]; exact h.oneWriter)
  rw [Function.update_eq_self] at hnext
  exact ⟨_, hnext⟩

/-- A program steps a statement. -/
theorem Serial.statement (hlz4 : lz4.Inverts) (hW : Alike W) (h : Serial lz4 W log₀ s blocks)
    (hp : p.journal = (s.process x.process).journal)
    (hfine : Process.Fine lz4 W (log₀ ++ blocks.flatMap Prod.snd) s.file (s.locks x.process) p)
    (hlooks : Process.Looks s.file (s.locks x.process) p) (htask : p.task = some t)
    (hcalls : p.calls = op :: calls)
    (hserved : ((s.statement lz4 x p t op).1.process x.process).Served) :
    ∃ blocks, Serial lz4 W log₀ (s.statement lz4 x p t op).1 blocks := by
  have hadvances := hfine.statement hlz4 hW hlooks h.holds (fun e he => h.allowed e he) htask hcalls
    (show (env x (s.granted x p t)).verdicts = _ from rfl) (lockStep s x p t)
  have hlocks := oneWriter_lockAfter h.oneWriter x p t
  unfold SharedFile.statement at hserved ⊢
  dsimp only at hserved ⊢
  rw [Function.update_self] at hserved
  rcases hresult : t.step lz4 (env x (s.granted x p t)) (p.archive.meet (env x (s.granted x p t)))
    with ⟨a, t' | answer⟩
  · rw [hresult] at hadvances
    exact ⟨_, h.moves hp hadvances hlocks⟩
  · rw [hresult] at hadvances hserved
    obtain ⟨block, hmoves⟩ := hadvances hserved
    exact ⟨_, h.moves hp hmoves hlocks⟩

/-- A program begins a call. -/
theorem Serial.call (h : Serial lz4 W log₀ s blocks) (hp : p.journal = (s.process x.process).journal)
    (hfine : Process.Fine lz4 W (log₀ ++ blocks.flatMap Prod.snd) s.file (s.locks x.process) p)
    (hlooks : Process.Looks s.file (s.locks x.process) p) (htask : p.task = none)
    (hcalls : p.calls = op :: calls) : ∃ blocks, Serial lz4 W log₀ (s.call lz4 x p op).1 blocks := by
  have hrests := hfine.rests htask
  have hwrite {w : Write} (hop : op.write? = some w) :
      ∃ blocks, Serial lz4 W log₀ (s.startWrite lz4 x p op w).1 blocks := by
    unfold SharedFile.startWrite
    rw [if_neg hfine.mode]
    exact h.updateProcess hp (hfine.startWrite htask hcalls hop x.memory) rfl
  cases op with
  | construct id =>
    exact h.updateProcess hp { hfine with stands := .begins rfl hcalls { hrests with } } rfl
  | destroy id =>
    exact h.updateProcess hp { hfine with stands := .ends rfl hcalls { hrests with } } rfl
  | bulkWrite id kind path contents mode => exact hwrite rfl
  | write kind path contents mode => exact hwrite rfl
  | readBytes path =>
    unfold SharedFile.call
    dsimp only
    generalize hlock : (if (s.locks.mayRead x.process && p.archive.connection.inTransaction) = true then
      (s.locks x.process).read else s.locks x.process) = lock'
    have hwrites : lock'.writes = (s.locks x.process).writes := by
      rw [← hlock]
      split
      · exact Lock.writes_read _
      · rfl
    have hread := hfine.read hlooks htask hcalls hwrites (env x (s.locks.mayRead x.process))
      (p.archive.read lz4 path (env x (s.locks.mayRead x.process))).2
    refine ⟨_, h.moves hp (Process.Fine.moves hread h.holds ?_ rfl)
      (h.oneWriter.same fun hlocked => hwrites ▸ hlocked)⟩
    rw [Process.journal_give]
    rfl

/-- A program takes its turn, and no write throws. -/
theorem Serial.turn (hlz4 : lz4.Inverts) (hW : Alike W) (h : Serial lz4 W log₀ s blocks) (x : Turn ι)
    (hserved : ∀ i, ((s.turn lz4 x).1.process i).Served) :
    ∃ blocks, Serial lz4 W log₀ (s.turn lz4 x).1 blocks := by
  -- The program looks at the file, and then a call goes on, or a new one begins.
  obtain ⟨hfine, hlooks⟩ := (h.process x.process).look
  have hp : ((s.process x.process).look s.file (s.locks x.process)).journal =
      (s.process x.process).journal := by
    unfold Process.journal
    rw [(Process.look_task _ _ _).2]
  have hown := hserved x.process
  unfold SharedFile.turn at hown ⊢
  dsimp only at hown ⊢
  generalize (s.process x.process).look s.file (s.locks x.process) = p at hfine hlooks hp hown
  cases hcalls : p.calls with
  | nil =>
    cases p.task with
    | none => exact ⟨blocks, h⟩
    | some t => exact ⟨blocks, h⟩
  | cons op calls =>
    cases htask : p.task with
    | none => exact h.call hp hfine hlooks htask hcalls
    | some t =>
      simp only [htask, hcalls] at hown
      exact h.statement hlz4 hW hp hfine hlooks htask hcalls hown

/-- What has returned stays. -/
theorem returned_turn (lz4 : Lz4) (s : SharedFile ι) (x : Turn ι) (i : ι) :
    (s.process i).returned <+: ((s.turn lz4 x).1.process i).returned := by
  rcases eq_or_ne i x.process with rfl | hi
  · have hlook := ((s.process x.process).look_task s.file (s.locks x.process)).2
    unfold SharedFile.turn
    dsimp only
    generalize (s.process x.process).look s.file (s.locks x.process) = p at hlook ⊢
    split
    · next t op _ _ _ =>
      unfold SharedFile.statement
      dsimp only
      rw [Function.update_self, ← hlook]
      rcases t.step lz4 _ _ with ⟨a, t' | answer⟩
      · exact List.prefix_rfl
      · exact List.prefix_append _ _
    · next op _ _ _ =>
      obtain ⟨lock, q, heq, hq⟩ := exists_call_eq lz4 s x p op
      rw [heq, ← hlook]
      dsimp only
      rw [Function.update_self]
      exact hq
    · exact List.prefix_rfl
  · rw [(turn_of_ne lz4 s x hi).2]

/-- A write that has thrown has thrown for good. -/
theorem served_of_exec (lz4 : Lz4) {turns : List (Turn ι)}
    (h : ∀ i, ((exec (SharedFile.turn lz4) s turns).process i).Served) : ∀ i, (s.process i).Served :=
  guard_of_exec (G := fun s : SharedFile ι => ∀ i, (s.process i).Served)
    (fun s x hserved i answer hanswer =>
      hserved i answer ((returned_turn lz4 s x i).subset hanswer)) turns h

theorem Serial.exec (hlz4 : lz4.Inverts) (hW : Alike W) (h : Serial lz4 W log₀ s blocks)
    (turns : List (Turn ι)) (hserved : ∀ i, ((exec (SharedFile.turn lz4) s turns).process i).Served) :
    ∃ blocks, Serial lz4 W log₀ (exec (SharedFile.turn lz4) s turns) blocks := by
  induction turns generalizing s blocks with
  | nil => exact ⟨blocks, h⟩
  | cons x turns ih =>
    -- No write has thrown at the end of the run, so none has thrown behind the first turn.
    obtain ⟨blocks', hnext⟩ := h.turn hlz4 hW x (served_of_exec lz4 hserved)
    exact ih hnext hserved

omit [Fintype ι] in
/-- The programs have written nothing yet. -/
theorem serial_start {db : Db} (hdb : db.Holds lz4 log₀) (hlog : ∀ e ∈ log₀, e ∈ W)
    {programs : ι → List WriterOp} (hprograms : ∀ i, ∀ op ∈ programs i, ∀ e ∈ op.written?, e ∈ W)
    (hatomic : ∀ i before op after, programs i = before ++ op :: after →
      Gtar.Atomic (Journal.after [] before) op) :
    Serial lz4 W log₀ (start db programs) [] where
  oneWriter := Locks.oneWriter_unlocked
  holds := by
    rw [List.flatMap_nil, List.append_nil]
    exact hdb
  allowed := by
    rw [List.flatMap_nil, List.append_nil]
    exact hlog
  process i := {
    mode := OpenMode.noConfusion
    settled := fun _ => rfl
    atomic := hatomic i
    allowed := hprograms i
    pending := fun e he => absurd he List.not_mem_nil
    committed := fun _ => rfl
    waits := fun _ => rfl
    outside := fun _ => rfl
    stands := .idle rfl ⟨rfl, rfl, rfl, rfl, rfl, fun hwrites => Bool.noConfusion hwrites⟩ }
  durable i := rfl

end SharedFile

/-- A program that writes in bulk, and one that writes directly. -/
def bulkAndDirect (direct : Bool) : List WriterOp :=
  if direct then [.write .ptr (lit "c") [3] .noCompress]
  else [.construct 0, .bulkWrite 0 .ptr (lit "a") [1] .noCompress,
    .bulkWrite 0 .ptr (lit "b") [2] .noCompress, .destroy 0]

/-- The second one has begun its transaction when the first one writes. -/
def alternately : List (Turn Bool) :=
  (List.replicate 2 true ++ List.replicate 10 false ++ List.replicate 3 true).map
    fun i => { process := i }

end Libgetar
