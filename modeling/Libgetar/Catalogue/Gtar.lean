import Libgetar.Archive
import Libgetar.Record.Model

/-!
# The catalogue of an archive

`GTAR`: an archive behind one of the backends, with the records that its paths name. Every path that
is present when the file is opened, or is written without a throw, goes through `insertRecord`, which
parses it and files its index under the record without index. `getRecordTypes` and `queryFrames` say
what is there.

The backend is a parameter (`Backend`), with an environment for each call.
-/

namespace Libgetar

open Lib

/-- What `GTAR` uses of the interface `Archive`. -/
structure Backend (σ ε : Type*) where
  writePtr : σ → Write → ε → σ × Answer
  beginBulkWrites : σ → ε → σ
  endBulkWrites : σ → ε → σ
  read : σ → Bytes → ε → σ × Answer
  size : σ → ℕ
  getItemName : σ → ℕ → Bytes

/-- A store as a backend. It lists its writes, as `m_fileNames` of `SqliteArchive` does. -/
def storeBackend (refuses : Bytes → Option Bytes) : Backend Store Unit where
  writePtr log w _ := log.step refuses (.writePtr w)
  beginBulkWrites log _ := log
  endBulkWrites log _ := log
  read log path _ := log.step refuses (.read path)
  size log := log.length % 2 ^ 32
  getItemName log i := (log.map Prod.fst).getD i []

/-- Special sorter for index strings such that shorter strings appear first. -/
def indexCompare (a b : Bytes) : Bool :=
  natLt a.length b.length || (decide (a.length = b.length) && bytesLt a b)

/-- `IndexCompare` compares the lengths, and then the strings. -/
theorem indexCompare_eq (a b : Bytes) :
    indexCompare a b = lexLt natLt bytesLt (a.length, a) (b.length, b) := by
  have hlength : decide (a.length = b.length) = (!natLt b.length a.length) ∨
      natLt a.length b.length = true := by
    unfold natLt
    simp only [decide_eq_true_eq]
    rcases lt_trichotomy a.length b.length with h | h | h
    · exact Or.inr h
    · exact Or.inl (by simp [h])
    · exact Or.inl (by simp [h, Nat.ne_of_gt h])
  unfold indexCompare lexLt
  rcases hlength with h | h
  · rw [h]
  · simp only [h, Bool.true_or]

instance : StrictTotal indexCompare := by
  have h : indexCompare = fun a b => lexLt natLt bytesLt (a.length, a) (b.length, b) :=
    funext fun a => funext fun b => indexCompare_eq a b
  rw [h]
  exact StrictTotal.comap (fun a : Bytes => (a.length, a)) fun a b hab => congrArg Prod.snd hab

/-- A set of indices. -/
abbrev IndexSet := StdSet Bytes indexCompare

/-- An archive with its catalogue. -/
structure Gtar (σ : Type*) where
  /-- The archive abstraction object, until it is closed. -/
  archive : Option σ
  /-- Cached record objects. -/
  records : StdMap Record IndexSet Record.lt
  indexedRecords : StdMap Record (List Bytes) Record.lt

/-- Which of the functions is called to write. -/
inductive WriteKind where
  | string
  | bytes
  | ptr
deriving DecidableEq

/-- The calls. A `BulkWriter` makes writes that are not immediate, and the calls around them. -/
inductive GtarOp where
  | write (kind : WriteKind) (path contents : Bytes) (mode : CompressMode) (immediate : Bool)
  | beginBulkWrites
  | endBulkWrites
  | readBytes (path : Bytes)
  | close
deriving DecidableEq

namespace Gtar

variable {σ ε : Type*}

/-! ## The catalogue -/

/-- Insert a record into the set of cached records. -/
def insertRecord (g : Gtar σ) (path : Bytes) : Gtar σ :=
  let (index, rec') := (Record.ofPath path).nullifyIndex
  { g with
    records := g.records.upsert rec' fun found => StdSet.insert (found.getD .empty) index
    indexedRecords := g.indexedRecords.upsert rec' fun found => found.getD [] ++ [index] }

/-- Query all of the records in the archive. -/
def getRecordTypes (g : Gtar σ) : List Record := g.records.keys

/-- Query the indices associated with a given record. -/
def queryFrames (g : Gtar σ) (target : Record) : List Bytes :=
  match g.records.find? target.withNullifiedIndex with
  | some indices => StdSet.toList indices
  | none => []

/-- The constructor, behind the choice of the backend: the record list is populated
unconditionally. -/
def ofArchive (B : Backend σ ε) (archive : σ) : Gtar σ :=
  (List.range (B.size archive)).foldl (fun g index => g.insertRecord (B.getItemName archive index))
    ⟨some archive, .empty, .empty⟩

/-! ## Calls -/

/-- The body that the functions that write share. -/
def write (function : Bytes) (B : Backend σ ε) (g : Gtar σ) (w : Write) (env : ε) :
    Gtar σ × Answer :=
  match g.archive with
  | none => (g, .threw (lit "Calling " ++ function ++ lit "() with a closed GTAR object"))
  | some archive =>
    let (archive, answer) := B.writePtr archive w env
    let g := { g with archive := some archive }
    if answer = .done then (g.insertRecord w.path, .done) else (g, answer)

/-- `writeString`. -/
def writeString (B : Backend σ ε) (g : Gtar σ) (path contents : Bytes) (mode : CompressMode)
    (immediate : Bool) (env : ε) : Gtar σ × Answer :=
  write (lit "writeString") B g ⟨path, contents, mode, immediate⟩ env

/-- `writeBytes`. The backends inherit `writeVec`, which is `writePtr`. -/
def writeBytes (B : Backend σ ε) (g : Gtar σ) (path contents : Bytes) (mode : CompressMode)
    (immediate : Bool) (env : ε) : Gtar σ × Answer :=
  write (lit "writeBytes") B g ⟨path, contents, mode, immediate⟩ env

/-- `writePtr`. -/
def writePtr (B : Backend σ ε) (g : Gtar σ) (path contents : Bytes) (mode : CompressMode)
    (immediate : Bool) (env : ε) : Gtar σ × Answer :=
  write (lit "writePtr") B g ⟨path, contents, mode, immediate⟩ env

/-- `beginBulkWrites`. -/
def beginBulkWrites (B : Backend σ ε) (g : Gtar σ) (env : ε) : Gtar σ × Answer :=
  match g.archive with
  | none => (g, .threw (lit "Calling beginBulkWrites() with a closed GTAR object"))
  | some archive => ({ g with archive := some (B.beginBulkWrites archive env) }, .done)

/-- `endBulkWrites`. -/
def endBulkWrites (B : Backend σ ε) (g : Gtar σ) (env : ε) : Gtar σ × Answer :=
  match g.archive with
  | none => (g, .threw (lit "Calling endBulkWrites() with a closed GTAR object"))
  | some archive => ({ g with archive := some (B.endBulkWrites archive env) }, .done)

/-- `readBytes`. -/
def readBytes (B : Backend σ ε) (g : Gtar σ) (path : Bytes) (env : ε) : Gtar σ × Answer :=
  match g.archive with
  | none => (g, .threw (lit "Calling readBytes() with a closed GTAR object"))
  | some archive =>
    let (archive, answer) := B.read archive path env
    ({ g with archive := some archive }, answer)

/-- `close`. -/
def close (g : Gtar σ) : Gtar σ := { g with archive := none }

/-- One call. -/
def step (B : Backend σ ε) (g : Gtar σ) (c : GtarOp × ε) : Gtar σ × Answer :=
  match c with
  | (.write .string path contents mode immediate, env) =>
    g.writeString B path contents mode immediate env
  | (.write .bytes path contents mode immediate, env) =>
    g.writeBytes B path contents mode immediate env
  | (.write .ptr path contents mode immediate, env) =>
    g.writePtr B path contents mode immediate env
  | (.beginBulkWrites, env) => g.beginBulkWrites B env
  | (.endBulkWrites, env) => g.endBulkWrites B env
  | (.readBytes path, env) => g.readBytes B path env
  | (.close, _) => (g.close, .done)

/-- The path that `getRecord` reads. -/
def recordPath (r : Record) (index : Bytes) : Bytes :=
  (if index ≠ [] then r.setIndex index else r).getPath

end Gtar

end Libgetar
