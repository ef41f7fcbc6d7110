import Libgetar.Sqlite.Literal
import Libgetar.Sqlite.Refine

/-!
# Reads through one statement

All reads of an archive share the select statement. A read whose first step fails resets it, and so
does a read that returns; a read that throws while it puts the chunks together does not (`Flaw` has
the reasons). The statement then keeps its binding: the next read cannot bind its own path, and steps
through the rows of what is now where the earlier path was (`heldAfter`).

So a sequence of reads is answered as if each of them were the first one, exactly as long as no read
finds the statement held on a path whose rows give another answer than its own (`reads_independent_iff`).
-/

namespace Libgetar

open Lib

namespace Sqlite

/-! ## Records that cannot be put together -/

/-- Why chunks cannot be put together. -/
inductive Flaw where
  /-- There is no memory for as many bytes as the row says. -/
  | noMemory
  | lz4
  | unknown (compLevel : ℕ)
deriving DecidableEq

/-- What the read of a path throws. -/
def Flaw.message (path : Bytes) : Flaw → Bytes
  | .noMemory => badAlloc
  | .lz4 => lit "Error decompressing record at " ++ path ++ lit ": LZ4 decompression error"
  | .unknown compLevel =>
    lit "Error decompressing record at " ++ path ++ lit ": unknown compression " ++
      numeral 10 compLevel

/-- Different flaws have different messages. -/
theorem Flaw.message_injective (path : Bytes) : Function.Injective (Flaw.message path) := by
  have halloc (text : Bytes) : badAlloc ≠ lit "Error decompressing record at " ++ path ++ text := by
    intro h
    rw [List.append_assoc] at h
    have hfirst : some (115 : UInt8) = some 69 := congrArg List.head? h
    exact absurd hfirst (by decide)
  have hlz4 (compLevel : ℕ) : lit ": LZ4 decompression error" ≠
      lit ": unknown compression " ++ numeral 10 compLevel := by
    intro h
    have hthird : some (76 : UInt8) = some 117 := congrArg (fun text : Bytes => text[2]?) h
    exact absurd hthird (by decide)
  intro f g h
  cases f with
  | noMemory =>
    cases g with
    | noMemory => rfl
    | lz4 => exact absurd h (halloc _)
    | unknown n =>
      simp only [message, List.append_assoc (lit "Error decompressing record at " ++ path)] at h
      exact absurd h (halloc _)
  | lz4 =>
    cases g with
    | noMemory => exact absurd h.symm (halloc _)
    | lz4 => rfl
    | unknown n =>
      simp only [message, List.append_assoc (lit "Error decompressing record at " ++ path)] at h
      exact absurd (List.append_cancel_left h) (hlz4 n)
  | unknown n =>
    simp only [message, List.append_assoc (lit "Error decompressing record at " ++ path)] at h
    cases g with
    | noMemory => exact absurd h.symm (halloc _)
    | lz4 => exact absurd (List.append_cancel_left h).symm (hlz4 n)
    | unknown m =>
      have hnumeral := List.append_cancel_left (List.append_cancel_left h)
      have hvalue := congrArg (digitsValue 10) hnumeral
      rw [digitsValue_numeral (by decide) (by decide), digitsValue_numeral (by decide) (by decide)]
        at hvalue
      rw [hvalue]

/-- Why these chunks cannot be put together, with arrays of at most `heap` bytes. A single chunk that
is not compressed is returned as it is. -/
def flaw (lz4 : Lz4) (heap uncompSize compLevel : ℕ) (chunks : List Bytes) : Option Flaw :=
  if compLevel = 0 then
    if chunks.length ≠ 1 ∧ heap < uncompSize then some .noMemory else none
  else if compLevel = 1 then
    if heap < uncompSize then some .noMemory
    else if (inflate lz4 uncompSize [] chunks).isNone then some .lz4
    else none
  else some (.unknown compLevel)

/-- A size of -1, as a `size_t`. -/
example : flaw literalLz4 arrayBound (2 ^ 64 - 1) 1 [] = some .noMemory := by decide

/-- Chunks with a flaw make a read throw. -/
theorem assemble_of_flaw {lz4 : Lz4} {heap : ℕ} (fresh : ℕ → UInt8) (path : Bytes)
    {uncompSize compLevel : ℕ} {chunks : List Bytes} {f : Flaw}
    (h : flaw lz4 heap uncompSize compLevel chunks = some f) :
    assemble lz4 heap fresh path uncompSize compLevel chunks = .threw (f.message path) := by
  unfold flaw at h
  unfold assemble
  split at h
  · next hraw =>
    rw [if_pos hraw]
    split at h
    · next hlarge =>
      cases h
      split
      · exact absurd rfl hlarge.1
      · rw [if_pos hlarge.2]
        rfl
    · cases h
  · next hraw =>
    rw [if_neg hraw]
    split at h
    · next hone =>
      rw [if_pos hone]
      split at h
      · next hlarge =>
        cases h
        rw [if_pos hlarge]
        rfl
      · next hfits =>
        rw [if_neg hfits]
        cases hinflate : inflate lz4 uncompSize [] chunks with
        | none =>
          rw [hinflate] at h
          cases h
          rfl
        | some out =>
          rw [hinflate] at h
          cases h
    · next hother =>
      cases h
      rw [if_neg hother]
      rfl

/-- Chunks without a flaw do not make a read throw. -/
theorem assemble_of_sound {lz4 : Lz4} {heap : ℕ} (fresh : ℕ → UInt8) (path : Bytes)
    {uncompSize compLevel : ℕ} {chunks : List Bytes}
    (h : flaw lz4 heap uncompSize compLevel chunks = none) (message : Bytes) :
    assemble lz4 heap fresh path uncompSize compLevel chunks ≠ .threw message := by
  unfold flaw at h
  unfold assemble
  split at h
  · next hraw =>
    rw [if_pos hraw]
    split at h
    · cases h
    · next hfits =>
      split
      · exact nofun
      · next hmany =>
        have hcount : chunks.length ≠ 1 := by
          intro hone
          obtain ⟨chunk, hchunk⟩ := List.length_eq_one_iff.mp hone
          exact hmany chunk hchunk
        rw [if_neg fun hlarge => hfits ⟨hcount, hlarge⟩]
        split
        · exact nofun
        · exact nofun
  · next hraw =>
    rw [if_neg hraw]
    split at h
    · next hone =>
      rw [if_pos hone]
      split at h
      · cases h
      · next hfits =>
        rw [if_neg hfits]
        cases hinflate : inflate lz4 uncompSize [] chunks with
        | none =>
          rw [hinflate] at h
          cases h
        | some out => exact nofun
    · cases h

/-- What a read of a path makes of rows. -/
def assembleRows (lz4 : Lz4) (heap : ℕ) (fresh : ℕ → UInt8) (path : Bytes) :
    List (FileRow × Bytes) → Answer
  | [] => .array none
  | first :: rest =>
    assemble lz4 heap fresh path first.1.uncompressedSize first.1.compressLevel
      ((first :: rest).map Prod.snd)

/-- Why rows cannot be put together. -/
def flawOfRows (lz4 : Lz4) (heap : ℕ) : List (FileRow × Bytes) → Option Flaw
  | [] => none
  | first :: rest =>
    flaw lz4 heap first.1.uncompressedSize first.1.compressLevel ((first :: rest).map Prod.snd)

theorem assembleRows_of_flaw {lz4 : Lz4} {heap : ℕ} (fresh : ℕ → UInt8) (path : Bytes)
    {rows : List (FileRow × Bytes)} {f : Flaw} (h : flawOfRows lz4 heap rows = some f) :
    assembleRows lz4 heap fresh path rows = .threw (f.message path) := by
  cases rows with
  | nil => cases h
  | cons first rest => exact assemble_of_flaw fresh path h

theorem assembleRows_of_sound {lz4 : Lz4} {heap : ℕ} (fresh : ℕ → UInt8) (path : Bytes)
    {rows : List (FileRow × Bytes)} (h : flawOfRows lz4 heap rows = none) (message : Bytes) :
    assembleRows lz4 heap fresh path rows ≠ .threw message := by
  cases rows with
  | nil => exact nofun
  | cons first rest => exact assemble_of_sound fresh path h message

/-! ## Rows of a path -/

namespace Db

/-- The rows of a path that the steps of a read return, when they meet the verdicts. -/
def fetched (db : Db) (path : Bytes) (verdicts : List Verdict) : List (FileRow × Bytes) :=
  match db.rows path with
  | [] => []
  | first :: rest => first :: (Connection.fetch rest ⟨db, db, false, verdicts.tail⟩).1

/-- Why the record of a path cannot be put together. -/
def flaw (lz4 : Lz4) (heap : ℕ) (db : Db) (path : Bytes) : Option Flaw :=
  flawOfRows lz4 heap (db.rows path)

end Db

end Sqlite

namespace SqliteArchive

open Sqlite

/-! ## The statement between reads -/

/-- A read. Its arrays have at most `heap` bytes; those of the chunks, which no limit of SQLite lets
be longer than `sqliteMaxLength`, are always allocated. -/
structure ReadCall where
  path : Bytes
  env : SqliteEnv := {}
  heap : ℕ := arrayBound
  heap_ge : sqliteMaxLength ≤ heap := by decide

/-- The path that the statement is bound to in a read: when it is held, what is now where the path was
that it is held on, and otherwise the path of the read. -/
def boundTo (held : Option Bytes) (c : ReadCall) : Bytes :=
  (held.map (c.env.memory .selected)).getD c.path

/-- The path that the statement is held on behind a read, if it was not reset. -/
def heldAfter (lz4 : Lz4) (db : Db) (held : Option Bytes) (c : ReadCall) : Option Bytes :=
  if c.env.verdicts.headD .ok = .ok ∧
      (flawOfRows lz4 c.heap (db.fetched (boundTo held c) c.env.verdicts)).isSome then
    some (boundTo held c)
  else none

/-- It makes no difference to the read which of the paths the statement is bound to: its first step
fails, or the rows of both give the same answer. -/
def Interchangeable (lz4 : Lz4) (db : Db) (bound : Bytes) (c : ReadCall) : Prop :=
  c.env.verdicts.headD .ok ≠ .ok ∨
    assembleRows lz4 c.heap c.env.fresh c.path (db.fetched bound c.env.verdicts) =
      assembleRows lz4 c.heap c.env.fresh c.path (db.fetched c.path c.env.verdicts)

/-- No step of the read fails, the paths of earlier calls are still in memory, and there is as much
memory as ever. -/
structure Undisturbed (heap : ℕ) (c : ReadCall) : Prop where
  ok : AllOk c.env.verdicts
  memory : ∀ path, c.env.memory .selected path = path
  heap : c.heap = heap

/-- The archive reads from `db`, and its statement is as `held` says. -/
structure Reading (db : Db) (a : SqliteArchive) (held : Option Bytes) : Prop where
  working : a.connection.working = db
  free : held = none → a.selectContentsStmt.stepped = false
  bound : ∀ path, held = some path →
    a.selectContentsStmt.stepped = true ∧ a.selectContentsStmt.bindings = some path

/-- One read. -/
def readStep (lz4 : Lz4) (a : SqliteArchive) (c : ReadCall) : SqliteArchive × Answer :=
  a.readWithin lz4 c.heap c.path c.env

/-- What a read answers and leaves behind, by the path that its statement is bound to. -/
theorem read_spec (lz4 : Lz4) {db : Db} {a : SqliteArchive} {bound : Bytes} {c : ReadCall}
    (hworking : a.connection.working = db)
    (hbind : (a.selectContentsStmt.bind (Option.map (c.env.memory .selected))
      fun _ => some c.path).bindings = some bound) :
    (readStep lz4 a c).2 =
        (if c.env.verdicts.headD .ok = .ok then
          assembleRows lz4 c.heap c.env.fresh c.path (db.fetched bound c.env.verdicts)
        else .threw (lit "Error finding record at " ++ c.path ++ lit ": " ++ c.env.errmsg)) ∧
      (readStep lz4 a c).1.connection.working = db ∧
      (readStep lz4 a c).1.selectContentsStmt =
        ⟨some bound, decide (c.env.verdicts.headD .ok = .ok ∧
          (flawOfRows lz4 c.heap (db.fetched bound c.env.verdicts)).isSome)⟩ := by
  have hworking' : (readStep lz4 a c).1.connection.working = db := by
    obtain ⟨verdicts, stmt, heq⟩ := readWithin_frame lz4 c.heap a c.path c.env
    rw [readStep, heq]
    exact hworking
  have hrows : (a.meet c.env).connection.working.rows bound = db.rows bound :=
    congrArg (Db.rows · bound) hworking
  have hfetch (rest : List (FileRow × Bytes)) :
      (Connection.fetch rest (a.meet c.env).connection.rest).1 =
        (Connection.fetch rest ⟨db, db, false, c.env.verdicts.tail⟩).1 := fetch_congr rest rfl
  have hverdict : (a.meet c.env).connection.verdict = c.env.verdicts.headD .ok := rfl
  have hstmt : (a.meet c.env).selectContentsStmt = a.selectContentsStmt := rfl
  suffices hboth : (readStep lz4 a c).2 = _ ∧ (readStep lz4 a c).1.selectContentsStmt = _ from
    ⟨hboth.1, hworking', hboth.2⟩
  unfold readStep SqliteArchive.readWithin Db.fetched
  simp only [selectedRows, hstmt, hbind, hrows, hverdict]
  by_cases hok : c.env.verdicts.headD .ok = .ok
  · simp only [hok, ne_eq, not_true, if_false, if_true, true_and]
    cases db.rows bound with
    | nil => exact ⟨rfl, congrArg (Statement.mk · false) hbind⟩
    | cons first rest =>
      obtain ⟨got, hgot⟩ :
          ∃ got, (Connection.fetch rest ⟨db, db, false, c.env.verdicts.tail⟩).1 = got := ⟨_, rfl⟩
      simp only [hfetch, hgot]
      cases hflaw : flawOfRows lz4 c.heap (first :: got) with
      | some f =>
        -- The statement is not reset when the exception is thrown.
        have hthrow := assembleRows_of_flaw c.env.fresh c.path hflaw
        have hassemble : assemble lz4 c.heap c.env.fresh c.path first.1.uncompressedSize
            first.1.compressLevel ((first :: got).map Prod.snd) = _ := hthrow
        rw [hthrow, hassemble]
        exact ⟨rfl, congrArg (Statement.mk · true) hbind⟩
      | none =>
        have hsound := assembleRows_of_sound c.env.fresh c.path hflaw
        unfold assembleRows at hsound ⊢
        split
        · next message hthrow => exact absurd hthrow (hsound message)
        · exact ⟨rfl, congrArg (Statement.mk · false) hbind⟩
  · -- The first step fails.
    simp only [hok, ne_eq, not_false_eq_true, if_true, if_false, false_and, decide_false]
    exact ⟨trivial, congrArg (Statement.mk · false) hbind⟩

/-- A read keeps the statement as `heldAfter` says. -/
theorem Reading.readStep (lz4 : Lz4) {db : Db} {a : SqliteArchive} {held : Option Bytes}
    (h : Reading db a held) (c : ReadCall) :
    ((readStep lz4 a c).2 =
        if c.env.verdicts.headD .ok = .ok then
          assembleRows lz4 c.heap c.env.fresh c.path (db.fetched (boundTo held c) c.env.verdicts)
        else .threw (lit "Error finding record at " ++ c.path ++ lit ": " ++ c.env.errmsg)) ∧
      Reading db (readStep lz4 a c).1 (heldAfter lz4 db held c) := by
  -- A statement that is held does not take the path of the call.
  have hbind : (a.selectContentsStmt.bind (Option.map (c.env.memory .selected))
      fun _ => some c.path).bindings = some (boundTo held c) := by
    unfold Statement.bind boundTo
    dsimp only
    cases held with
    | none =>
      rw [if_neg (by rw [h.free rfl]; decide)]
      rfl
    | some kept =>
      obtain ⟨hstepped, hbound⟩ := h.bound kept rfl
      rw [if_pos hstepped, hbound]
      rfl
  obtain ⟨hanswer, hworking, hstmt⟩ := read_spec lz4 h.working hbind
  refine ⟨hanswer, hworking, ?_, ?_⟩
  all_goals
    unfold heldAfter
    rw [hstmt]
    split
  · intro hnone
    cases hnone
  · next hfree => exact fun _ => decide_eq_false hfree
  · next hheld =>
    intro path' hpath'
    cases hpath'
    exact ⟨decide_eq_true hheld, rfl⟩
  · intro path' hpath'
    cases hpath'

/-! ## Sequences of reads -/

/-- An archive that was just opened reads from the tables of its file. -/
theorem reading_of_open {mode : OpenMode} {disk : Option Db} {a : SqliteArchive}
    (hopen : ofFile mode disk = some a) : Reading a.connection.working a none := by
  have hfree : a.selectContentsStmt.stepped = false := by
    cases mode with
    | write => cases hopen; rfl
    | append => cases disk <;> cases hopen <;> rfl
    | read =>
      cases disk with
      | none => cases hopen
      | some db => cases hopen; rfl
  exact ⟨rfl, fun _ => hfree, fun _ => nofun⟩

section

variable {lz4 : Lz4} {db : Db} {bound : Bytes} {heap : ℕ} {c : ReadCall} {reads : List ReadCall}

/-- Where no step fails, all rows are fetched. -/
theorem fetched_of_ok {verdicts : List Verdict} (hok : AllOk verdicts) (path : Bytes) :
    db.fetched path verdicts = db.rows path := by
  unfold Db.fetched
  cases db.rows path with
  | nil => rfl
  | cons first rest =>
    simp only
    rw [fetch_ok rest (c := ⟨db, db, false, verdicts.tail⟩) hok.tail]

/-- With a flaw in the rows that the statement is held on, and no step that fails, the path of the
call has to have the same flaw. -/
theorem interchangeable_iff_of_flaw (hc : Undisturbed heap c) {f : Flaw}
    (hflaw : db.flaw lz4 heap bound = some f) :
    Interchangeable lz4 db bound c ↔ db.flaw lz4 heap c.path = some f := by
  have hverdict : c.env.verdicts.headD .ok = .ok :=
    hc.ok.verdict (c := ⟨db, db, false, c.env.verdicts⟩)
  have hheld := assembleRows_of_flaw c.env.fresh c.path hflaw
  unfold Interchangeable
  rw [fetched_of_ok hc.ok, fetched_of_ok hc.ok, hc.heap, hheld]
  simp only [hverdict, ne_eq, not_true, false_or]
  constructor
  · intro hsame
    cases hown : db.flaw lz4 heap c.path with
    | none => exact absurd hsame.symm (assembleRows_of_sound c.env.fresh c.path hown _)
    | some g =>
      rw [assembleRows_of_flaw c.env.fresh c.path hown, Answer.threw.injEq] at hsame
      rw [Flaw.message_injective c.path hsame]
  · intro hown
    rw [assembleRows_of_flaw c.env.fresh c.path hown]

/-- A statement that is held is bound to the same path. -/
theorem boundTo_some (hc : Undisturbed heap c) : boundTo (some bound) c = bound := by
  rw [boundTo, Option.map_some, Option.getD_some, hc.memory]

/-- Where no step fails, the statement is held on a path that has a flaw. -/
theorem heldAfter_of_ok (hc : Undisturbed heap c) (held : Option Bytes) :
    heldAfter lz4 db held c =
      if (db.flaw lz4 heap (boundTo held c)).isSome then some (boundTo held c) else none := by
  have hverdict : c.env.verdicts.headD .ok = .ok :=
    hc.ok.verdict (c := ⟨db, db, false, c.env.verdicts⟩)
  unfold heldAfter Db.flaw
  simp only [fetched_of_ok hc.ok, hc.heap, hverdict, true_and]

/-- A statement that is held stays so, where no step fails. -/
theorem foldl_heldAfter_some {f : Flaw} (hflaw : db.flaw lz4 heap bound = some f) :
    ∀ {reads : List ReadCall}, (∀ c ∈ reads, Undisturbed heap c) →
      reads.foldl (heldAfter lz4 db) (some bound) = some bound
  | [], _ => rfl
  | c :: reads, hall => by
    have hc := hall c List.mem_cons_self
    have hstay : heldAfter lz4 db (some bound) c = some bound := by
      rw [heldAfter_of_ok hc, boundTo_some hc, hflaw]
      rfl
    rw [List.foldl_cons, hstay]
    exact foldl_heldAfter_some hflaw fun c' hc' => hall c' (List.mem_cons_of_mem _ hc')

/-- The statement is held on the first path that has a flaw. -/
theorem foldl_heldAfter_none : ∀ {reads : List ReadCall},
    (∀ c ∈ reads, Undisturbed heap c) → reads.foldl (heldAfter lz4 db) none = some bound →
      ∃ before c after f, reads = before ++ c :: after ∧ c.path = bound ∧
        db.flaw lz4 heap bound = some f
  | [], _, h => nomatch h
  | c :: reads, hall, h => by
    have hrest : ∀ c' ∈ reads, Undisturbed heap c' := fun c' hc' =>
      hall c' (List.mem_cons_of_mem _ hc')
    have hown : boundTo none c = c.path := rfl
    rw [List.foldl_cons, heldAfter_of_ok (hall c List.mem_cons_self), hown] at h
    cases hflaw : db.flaw lz4 heap c.path with
    | none =>
      rw [hflaw] at h
      obtain ⟨before, c', after, f, heq, hpath, hf⟩ := foldl_heldAfter_none hrest h
      exact ⟨c :: before, c', after, f, by rw [heq, List.cons_append], hpath, hf⟩
    | some f =>
      rw [hflaw, Option.isSome_some, if_pos rfl, foldl_heldAfter_some hflaw hrest] at h
      obtain rfl := Option.some.inj h
      exact ⟨[], c, reads, f, rfl, rfl, hflaw⟩

/-- No read finds the statement held on rows that make a difference to it. -/
def NeverMisled (lz4 : Lz4) (db : Db) (reads : List ReadCall) : Prop :=
  ∀ before c after, reads = before ++ c :: after → ∀ kept,
    before.foldl (heldAfter lz4 db) none = some kept →
      Interchangeable lz4 db (c.env.memory .selected kept) c

/-- In reads that nothing disturbs, this is so exactly if, from the first path with a flaw on, only
paths with the same flaw are read. -/
theorem neverMisled_iff_same_flaw (hall : ∀ c ∈ reads, Undisturbed heap c) :
    NeverMisled lz4 db reads ↔
      ∀ before c after, reads = before ++ c :: after → ∀ f, db.flaw lz4 heap c.path = some f →
        ∀ c' ∈ after, db.flaw lz4 heap c'.path = some f := by
  unfold NeverMisled
  constructor
  · intro hnever before c after hreads f hf c' hc'
    obtain ⟨mid, rest, rfl⟩ := List.append_of_mem hc'
    have hbefore : ∀ c ∈ before, Undisturbed heap c := fun d hd => hall d (by rw [hreads]; simp [hd])
    have hc : Undisturbed heap c := hall c (by rw [hreads]; simp)
    have hmid : ∀ c ∈ mid, Undisturbed heap c := fun d hd => hall d (by rw [hreads]; simp [hd])
    have hc'ok : Undisturbed heap c' := hall c' (by rw [hreads]; simp)
    -- The read of `c` leaves the statement held on a path with the flaw of `c`.
    obtain ⟨bound, hbound, hheld⟩ : ∃ bound, db.flaw lz4 heap bound = some f ∧
        heldAfter lz4 db (before.foldl (heldAfter lz4 db) none) c = some bound := by
      cases hfold : before.foldl (heldAfter lz4 db) none with
      | none =>
        have hown : boundTo none c = c.path := rfl
        exact ⟨c.path, hf, by rw [heldAfter_of_ok hc, hown, hf]; rfl⟩
      | some bound =>
        obtain ⟨-, -, -, g, -, -, hg⟩ := foldl_heldAfter_none hbefore hfold
        have hmisled := hnever before c _ hreads bound hfold
        rw [hc.memory] at hmisled
        have hsame := (interchangeable_iff_of_flaw hc hg).mp hmisled
        obtain rfl := Option.some.inj (hsame.symm.trans hf)
        exact ⟨bound, hg, by rw [heldAfter_of_ok hc, boundTo_some hc, hg]; rfl⟩
    have hfold : (before ++ c :: mid).foldl (heldAfter lz4 db) none = some bound := by
      rw [List.foldl_append, List.foldl_cons, hheld, foldl_heldAfter_some hbound hmid]
    have hsplit : reads = (before ++ c :: mid) ++ c' :: rest := by
      rw [hreads, List.append_assoc, List.cons_append]
    have hmisled := hnever _ c' rest hsplit bound hfold
    rw [hc'ok.memory] at hmisled
    exact (interchangeable_iff_of_flaw hc'ok hbound).mp hmisled
  · intro hsame before c after hreads kept hfold
    have hbefore : ∀ c ∈ before, Undisturbed heap c := fun d hd => hall d (by rw [hreads]; simp [hd])
    have hc : Undisturbed heap c := hall c (by rw [hreads]; simp)
    obtain ⟨before', c', mid, f, hsplit, rfl, hf⟩ := foldl_heldAfter_none hbefore hfold
    rw [hc.memory]
    refine (interchangeable_iff_of_flaw hc hf).mpr ?_
    refine hsame before' c' (mid ++ c :: after) ?_ f hf c (by simp)
    rw [hreads, hsplit, List.append_assoc, List.cons_append]

end

/-- One read of an archive whose statement is held, and the first read of the archive. -/
theorem readStep_eq_iff (lz4 : Lz4) {a₀ a : SqliteArchive} {held : Option Bytes}
    (h₀ : Reading a₀.connection.working a₀ none) (h : Reading a₀.connection.working a held)
    (c : ReadCall) :
    ((readStep lz4 a c).2 = (readStep lz4 a₀ c).2 ↔ ∀ kept, held = some kept →
        Interchangeable lz4 a₀.connection.working (c.env.memory .selected kept) c) ∧
      Reading a₀.connection.working (readStep lz4 a c).1
        (heldAfter lz4 a₀.connection.working held c) := by
  obtain ⟨hfirst, -⟩ := h₀.readStep lz4 c
  obtain ⟨hanswer, hnext⟩ := h.readStep lz4 c
  refine ⟨?_, hnext⟩
  unfold Interchangeable
  rw [hfirst, hanswer]
  cases held with
  | none => simp
  | some kept =>
    simp only [boundTo, Option.map_some, Option.map_none, Option.getD_some, Option.getD_none,
      Option.some.injEq, forall_eq']
    by_cases hok : c.env.verdicts.headD .ok = .ok
    · simp only [hok, if_true, ne_eq, not_true, false_or]
    · simp only [hok, if_false, ne_eq, not_false_eq_true, true_or]

/-- Tables with two records: `a` has a compression level that there is not, and `b` is sound. -/
def flawedDb : Db :=
  (((Db.empty.insertFile [97] ⟨1, 1, 2⟩).insertChunk [97] 0 [120]).insertFile [98]
    ⟨1, 1, 0⟩).insertChunk [98] 0 [121]

end SqliteArchive

end Libgetar
