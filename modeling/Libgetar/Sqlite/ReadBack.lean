import Libgetar.Sqlite.Literal
import Libgetar.Sqlite.Refine

/-!
# Reading back what was written

A run of writes and reads in which every statement succeeds. The tables are then determined by the
writes (`Represents`): the row of a path is that of its last write, but its chunks are those of the
last write followed by those that an earlier write with more chunks has left behind
(`storedChunks`). A read puts all of them together, so it returns the last contents exactly if there
is a chunk at all and the chunks that were left behind add nothing (`ReadsBack`).
-/

namespace Libgetar

open Lib

namespace Sqlite

/-! ## What the writes leave behind -/

/-- The last write to a path, the oldest write first. -/
def lastOf (writes : List Write) (path : Bytes) : Option Write :=
  lastWrite (writes.map fun w => (w.path, w)) path

/-- The chunks that the writes leave under a path, in the order of their indices. -/
def storedChunks (lz4 : Lz4) (writes : List Write) (path : Bytes) : List Bytes :=
  writes.foldl (fun chunks w =>
    if path = w.path then (encode lz4 w).chunks ++ chunks.drop (encode lz4 w).chunks.length
    else chunks) []

/-- Some chunk is stored under the path, and those behind the chunks of the last write vanish. -/
def ReadsBack (lz4 : Lz4) (writes : List Write) (path : Bytes) : Prop :=
  ∀ w, lastOf writes path = some w → storedChunks lz4 writes path ≠ [] ∧
    ∀ chunk ∈ (storedChunks lz4 writes path).drop (encode lz4 w).chunks.length,
      Vanishes lz4 w.mode chunk

/-- The tables after the writes. -/
structure Represents (lz4 : Lz4) (writes : List Write) (db : Db) : Prop where
  file : ∀ path, db.fileList.find? path = (lastOf writes path).map fun w => (encode lz4 w).row
  contents : ∀ path i,
    db.fileContents.find? (path, i) = (storedChunks lz4 writes path)[i]?

section

variable {lz4 : Lz4} {writes : List Write} {w : Write} {path : Bytes} {db : Db}

theorem lastOf_concat : lastOf (writes ++ [w]) path = if path = w.path then some w else lastOf writes path := by
  rw [lastOf, List.map_append, List.map_singleton, lastWrite_concat, lastOf]

theorem storedChunks_concat : storedChunks lz4 (writes ++ [w]) path =
    if path = w.path then (encode lz4 w).chunks ++
      (storedChunks lz4 writes path).drop (encode lz4 w).chunks.length
    else storedChunks lz4 writes path := by
  simp only [storedChunks, List.foldl_append, List.foldl_cons, List.foldl_nil]

theorem represents_empty (lz4 : Lz4) : Represents lz4 [] .empty := ⟨fun _ => rfl, fun _ _ => rfl⟩

/-- One more write. -/
theorem Represents.store (h : Represents lz4 writes db) (w : Write) :
    Represents lz4 (writes ++ [w]) (db.store w.path (encode lz4 w)) := by
  constructor
  · intro path
    rw [Db.find?_fileList_store, lastOf_concat]
    split
    · rfl
    · exact h.file path
  · intro path i
    rw [Db.find?_fileContents_store, storedChunks_concat, h.contents]
    by_cases hpath : path = w.path
    · rw [if_pos hpath, List.getElem?_append]
      by_cases hi : i < (encode lz4 w).chunks.length
      · rw [if_pos ⟨hpath, hi⟩, if_pos hi]
      · -- A chunk that was left behind.
        have hindex : (encode lz4 w).chunks.length + (i - (encode lz4 w).chunks.length) = i := by
          omega
        rw [if_neg fun hand => hi hand.2, if_neg hi, List.getElem?_drop, hindex]
    · rw [if_neg fun hand => hpath hand.1, if_neg hpath]

/-- The chunks of the last write come first. -/
theorem storedChunks_eq_append (h : lastOf writes path = some w) :
    storedChunks lz4 writes path = (encode lz4 w).chunks ++
      (storedChunks lz4 writes path).drop (encode lz4 w).chunks.length := by
  induction writes using List.reverseRecOn with
  | nil => cases h
  | append_singleton writes w' ih =>
    rw [lastOf_concat] at h
    rw [storedChunks_concat]
    split at h
    · next hpath =>
      cases h
      rw [if_pos hpath, List.drop_left]
    · next hpath =>
      rw [if_neg hpath]
      exact ih h

/-- The last write to a path is a write to it. -/
theorem mem_of_lastOf (h : lastOf writes path = some w) : w ∈ writes := by
  obtain ⟨w', hw', heq⟩ := List.mem_map.mp (mem_of_lastWrite_eq_some h)
  cases heq
  exact hw'

end

/-! ## What a read makes of it -/

/-- A read of tables that are determined by the writes. -/
theorem Represents.read_iff {lz4 : Lz4} {writes : List Write} {db : Db} (hlz4 : lz4.Inverts)
    (h : Represents lz4 writes db) (hlen : ∀ w ∈ writes, w.contents.length ≤ lengthBound)
    (fresh : ℕ → UInt8) (path : Bytes) :
    db.read lz4 fresh path = .array ((lastOf writes path).map Write.contents) ↔
      ReadsBack lz4 writes path := by
  unfold Db.read Db.rows ReadsBack
  rw [h.file, Db.chunksOf_eq (h.contents path)]
  cases hlast : lastOf writes path with
  | none => simp
  | some w =>
    have happend := assemble_append_iff hlz4 fresh path (hlen w (mem_of_lastOf hlast))
      ((storedChunks lz4 writes path).drop (encode lz4 w).chunks.length)
    rw [← storedChunks_eq_append hlast] at happend
    have hall : (∀ w', some w = some w' → storedChunks lz4 writes path ≠ [] ∧
        ∀ chunk ∈ (storedChunks lz4 writes path).drop (encode lz4 w').chunks.length,
          Vanishes lz4 w'.mode chunk) ↔ storedChunks lz4 writes path ≠ [] ∧
        ∀ chunk ∈ (storedChunks lz4 writes path).drop (encode lz4 w).chunks.length,
          Vanishes lz4 w.mode chunk := by
      simp only [Option.some.injEq, forall_eq']
    rw [hall, ← happend]
    -- Without a chunk, the join has no row and the array is null.
    cases storedChunks lz4 writes path with
    | nil => simp
    | cons chunk rest =>
      have hsnd : ((encode lz4 w).row, chunk).2 :: (rest.map fun c => ((encode lz4 w).row, c)).map Prod.snd =
          chunk :: rest := by
        simp
      simp only [Option.map_some, List.map_cons]
      rw [hsnd]
      simp [Encoded.row]

/-- With contents that are not empty, and not fewer chunks than any write before, a write is read
back. -/
theorem readsBack_of_chunkCount {lz4 : Lz4} {writes : List Write} {path : Bytes}
    (hlen : ∀ w ∈ writes, w.contents.length ≤ lengthBound)
    (h : ∀ w, lastOf writes path = some w → 0 < w.contents.length ∧ ∀ w' ∈ writes,
      w'.path = path → chunkCount w'.contents.length ≤ chunkCount w.contents.length) :
    ReadsBack lz4 writes path := by
  intro w hlast
  obtain ⟨hpos, hmost⟩ := h w hlast
  have hcount := length_encode lz4 (hlen w (mem_of_lastOf hlast))
  -- There are never more chunks than the writes to the path have.
  have hbound : ∀ writes : List Write, (∀ w' ∈ writes, w'.contents.length ≤ lengthBound) →
      (∀ w' ∈ writes, w'.path = path →
        chunkCount w'.contents.length ≤ chunkCount w.contents.length) →
      (storedChunks lz4 writes path).length ≤ chunkCount w.contents.length := by
    intro writes
    induction writes using List.reverseRecOn with
    | nil => exact fun _ _ => Nat.zero_le _
    | append_singleton writes w' ih =>
      intro hlen hmost
      have hrest := ih (fun v hv => hlen v (List.mem_append_left _ hv))
        fun v hv => hmost v (List.mem_append_left _ hv)
      have hmem : w' ∈ writes ++ [w'] := List.mem_append_right _ (List.mem_singleton_self _)
      rw [storedChunks_concat]
      split
      · next hpath =>
        have hw' := hmost w' hmem hpath.symm
        have hcount' := length_encode lz4 (hlen w' hmem)
        rw [List.length_append, List.length_drop]
        omega
      · exact hrest
  have hstored := hbound writes hlen hmost
  constructor
  · intro hnil
    have hzero := congrArg List.length (@storedChunks_eq_append lz4 _ _ _ hlast)
    rw [hnil, List.length_nil, List.length_append, hcount] at hzero
    have hcountPos : 0 < chunkCount w.contents.length := pieceCount_pos chunkSize_pos hpos
    omega
  · intro chunk hchunk
    rw [List.drop_eq_nil_of_le (by omega)] at hchunk
    cases hchunk

end Sqlite

namespace SqliteArchive

open Sqlite

/-! ## Runs -/

/-- The writes among calls. -/
def writesOf (calls : List (Call × SqliteEnv)) : List Write :=
  calls.filterMap fun c =>
    match c.1 with
    | .writePtr w => some w
    | .read _ => none

/-- One call on the log of the writes, where a read gives the contents of the last write. -/
def logStep (writes : List Write) (c : Call × SqliteEnv) : List Write × Answer :=
  match c.1 with
  | .writePtr w => (writes ++ [w], .done)
  | .read path => (writes, .array ((lastOf writes path).map Write.contents))

/-- The log answers as the contents of an archive do. -/
theorem outputs_logStep (writes : List Write) (calls : List (Call × SqliteEnv)) :
    outputs logStep writes calls = outputs (Store.step fun _ => none)
      (writes.map fun w => (w.path, w.contents)) (calls.map Prod.fst) := by
  induction calls generalizing writes with
  | nil => rfl
  | cons c calls ih =>
    obtain ⟨call, env⟩ := c
    rw [List.map_cons, outputs_cons, outputs_cons, ih]
    cases call with
    | writePtr w =>
      simp only [logStep, Store.step, List.map_append, List.map_cons, List.map_nil]
    | read path =>
      have hlast : (lastOf writes path).map Write.contents =
          lastWrite (writes.map fun w => (w.path, w.contents)) path := by
        rw [lastOf, ← lastWrite_map, List.map_map]
        rfl
      simp only [logStep, Store.step, hlast]

theorem exec_logStep (writes : List Write) (calls : List (Call × SqliteEnv)) :
    exec logStep writes calls = writes ++ writesOf calls := by
  induction calls generalizing writes with
  | nil => exact (List.append_nil _).symm
  | cons c calls ih =>
    obtain ⟨call, env⟩ := c
    rw [exec_cons, ih]
    cases call with
    | writePtr w => exact List.append_assoc _ _ _
    | read path => rfl

/-- The archive is between two calls, and its tables are determined by the writes. -/
structure Agrees (lz4 : Lz4) (a : SqliteArchive) (writes : List Write) : Prop where
  mode : a.mode ≠ .read
  select : a.selectContentsStmt.stepped = false
  clean : ∃ db, Clean a db ∧ Represents lz4 writes db
  length : ∀ w ∈ writes, w.contents.length ≤ lengthBound

/-- A call in which every statement succeeds, with contents that fit into memory. -/
structure Succeeds (c : Call × SqliteEnv) : Prop where
  ok : AllOk c.2.verdicts
  length : ∀ w, c.1 = .writePtr w → w.contents.length ≤ lengthBound

/-- One call is answered as by the log, exactly if a read finds what was written. -/
theorem step_agrees {lz4 : Lz4} (hlz4 : lz4.Inverts) (a : SqliteArchive) (writes : List Write)
    (c : Call × SqliteEnv) (hc : Succeeds c) (h : Agrees lz4 a writes) :
    ((step lz4 a c).2 = (logStep writes c).2 ↔
        ∀ path, c.1 = .read path → ReadsBack lz4 writes path) ∧
      ((∀ path, c.1 = .read path → ReadsBack lz4 writes path) →
        Agrees lz4 (step lz4 a c).1 (logStep writes c).1) := by
  obtain ⟨call, env⟩ := c
  obtain ⟨hok, hlength⟩ := hc
  obtain ⟨db, hclean, hdb⟩ := h.clean
  cases call with
  | writePtr w =>
    -- A write is appended to the log.
    obtain ⟨hdone, hwritten⟩ := writePtr_ok lz4 (w := w) hclean h.mode hok
    constructor
    · exact ⟨fun _ path hpath => (nomatch hpath), fun _ => hdone⟩
    · intro _
      refine ⟨hwritten.mode ▸ h.mode, hwritten.select ▸ h.select,
        ⟨_, hwritten.toClean, hdb.store w⟩, fun v hv => ?_⟩
      rcases List.mem_append.mp hv with hv | hv
      · exact h.length v hv
      · rw [List.mem_singleton.mp hv]
        exact hlength w rfl
  | read path =>
    -- A read leaves the tables, and the statement if it does not throw.
    have hanswer := read_ok lz4 path hclean.working h.select hok
    have hread := hdb.read_iff hlz4 h.length env.fresh path
    rw [← hanswer] at hread
    constructor
    · constructor
      · rintro heq path' hpath
        cases hpath
        exact hread.mp heq
      · exact fun hback => hread.mpr (hback path rfl)
    · intro hback
      have hnot : ∀ message, (a.read lz4 path env).2 ≠ .threw message := by
        intro message
        rw [hread.mpr (hback path rfl)]
        exact nofun
      obtain ⟨verdicts, stmt, heq⟩ := read_frame lz4 a path env
      refine ⟨?_, read_stepped lz4 a path env hnot, ⟨db, read_clean lz4 path env hclean, hdb⟩, h.length⟩
      have hmode : (a.read lz4 path env).1.mode = a.mode := by rw [heq]
      exact hmode ▸ h.mode

/-- A new archive holds nothing. -/
theorem agrees_of_new {lz4 : Lz4} {mode : OpenMode} {disk : Option Db} {a : SqliteArchive}
    (hopen : ofFile mode disk = some a) (hnew : mode = .write ∨ disk = none) : Agrees lz4 a [] := by
  have hclean : Clean ⟨mode, [], ⟨.empty, .empty, false, []⟩, { bindings := () }, { bindings := () },
      { bindings := none }, { bindings := {} }, { bindings := none }⟩ .empty := ⟨rfl, rfl, rfl, rfl, rfl⟩
  cases mode with
  | write =>
    cases hopen
    exact ⟨nofun, rfl, ⟨_, hclean, represents_empty lz4⟩, nofun⟩
  | append =>
    obtain rfl := hnew.resolve_left nofun
    cases hopen
    exact ⟨nofun, rfl, ⟨_, hclean, represents_empty lz4⟩, nofun⟩
  | read =>
    obtain rfl := hnew.resolve_left nofun
    cases hopen

end SqliteArchive

end Libgetar
