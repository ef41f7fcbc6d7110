import Libgetar.Sqlite.Literal
import Libgetar.Sqlite.Refine

/-!
# Records in pieces

The pieces that the loops of `writePtr` cut, one by one: where each of them starts, and that it fits
the integers and the buffers that it goes through, in the loops and when it is read back
(`PiecesFit`). A record whose path is new is therefore read back as it was written, in every mode
and at every length, but for one: contents without a byte have no piece, so there is no row to join,
and the read takes the record for one that was never written (`write_read_iff`).
-/

namespace Libgetar

open Lib

namespace Sqlite

/-! ## Where the pieces start -/

/-- The piece at an index, as its pass of the loop cuts it. -/
theorem chunksFrom_getElem? (limit : ℕ) (contents : Bytes) : ∀ {fuel chunkidx k : ℕ} {piece : Bytes},
    (chunksFrom limit contents fuel chunkidx)[k]? = some piece →
      chunkOffset limit (chunkidx + k) < contents.length ∧
        piece = substr contents (chunkOffset limit (chunkidx + k))
          (min (limit / 2) (contents.length - chunkOffset limit (chunkidx + k)))
  | 0, _, _, _, h => by
    rw [chunksFrom, List.getElem?_nil] at h
    cases h
  | fuel + 1, chunkidx, k, piece, h => by
    rw [chunksFrom] at h
    split at h
    · next hlt =>
      cases k with
      | zero =>
        rw [List.getElem?_cons_zero] at h
        cases h
        exact ⟨hlt, rfl⟩
      | succ k =>
        rw [List.getElem?_cons_succ] at h
        have hindex : chunkidx + (k + 1) = chunkidx + 1 + k := by omega
        rw [hindex]
        exact chunksFrom_getElem? limit contents h
    · rw [List.getElem?_nil] at h
      cases h

/-- The piece at an index starts at that many lengths of a piece. -/
theorem chunkOffset_of_lt {length k : ℕ} (hlen : length ≤ lengthBound) (hk : k < chunkCount length) :
    k * chunkSize < length ∧ chunkOffset sqliteMaxLength k = k * chunkSize := by
  have hpos := chunkSize_pos
  have hmul : (k + 1) * chunkSize ≤ length + (chunkSize - 1) :=
    (Nat.le_div_iff_mul_le hpos).mp (Nat.succ_le_of_lt hk)
  have hsucc : (k + 1) * chunkSize = k * chunkSize + chunkSize := Nat.succ_mul _ _
  have hlt : k * chunkSize < length := by omega
  exact ⟨hlt, chunkOffset_eq (by omega) hlen⟩

/-- The pieces in front of an index are the front of the contents: consecutive, without a gap and
without an overlap. -/
theorem flatten_take_chunks {contents : Bytes} (hlen : contents.length ≤ lengthBound) : ∀ {k : ℕ},
    k ≤ (chunks sqliteMaxLength contents).length →
      ((chunks sqliteMaxLength contents).take k).flatten = contents.take (k * chunkSize)
  | 0, _ => by rw [List.take_zero, List.flatten_nil, Nat.zero_mul, List.take_zero]
  | k + 1, hk => by
    have hfront := flatten_take_chunks hlen (Nat.le_of_succ_le hk)
    have hget := List.getElem?_eq_getElem (Nat.lt_of_succ_le hk)
    obtain ⟨-, hpiece⟩ := chunksFrom_getElem? sqliteMaxLength contents hget
    have hcount : k < chunkCount contents.length := by
      rw [← (chunks_spec hlen).2.1]
      exact Nat.lt_of_succ_le hk
    rw [Nat.zero_add, (chunkOffset_of_lt hlen hcount).2, substr, ← List.length_drop,
      ← List.take_eq_take_min] at hpiece
    calc ((chunks sqliteMaxLength contents).take (k + 1)).flatten
        = ((chunks sqliteMaxLength contents).take k).flatten ++
            (chunks sqliteMaxLength contents)[k] := by
          rw [List.take_add_one, hget, Option.toList_some, List.flatten_append, List.flatten_singleton]
      _ = contents.take (k * chunkSize) ++ (contents.drop (k * chunkSize)).take chunkSize := by
          rw [hfront, hpiece]
          rfl
      _ = contents.take ((k + 1) * chunkSize) := by rw [← List.take_add, Nat.succ_mul]

/-! ## What fits -/

/-- The limit of the pieces. -/
def pieceLimit (mode : CompressMode) : ℕ := if mode = .noCompress then rawLimit else lz4Limit

/-- The pieces of a record. -/
def pieces (w : Write) : List Bytes := chunks (pieceLimit w.mode) w.contents

/-- What is done to a piece in front of the insert. -/
def compressor (lz4 : Lz4) : CompressMode → Bytes → Bytes
  | .noCompress => id
  | .fastCompress => lz4.compressDefault
  | .mediumCompress => lz4.compressDefault
  | .slowCompress => lz4.compressHC

/-- `LZ4_COMPRESSBOUND`. -/
def compressBound (isize : ℕ) : ℕ := if lz4MaxInputSize < isize then 0 else isize + isize / 255 + 16

/-- What the loops of `writePtr` and `read` rely on. Behind `k` pieces, both have gone through
`((pieces w).take k).flatten`. -/
structure PiecesFit (lz4 : Lz4) (w : Write) : Prop where
  /-- The pieces cover the contents, in order. -/
  covers : (pieces w).flatten = w.contents
  /-- What is stored are the pieces, compressed or as they are. -/
  stored : (encode lz4 w).chunks = (pieces w).map (compressor lz4 w.mode)
  /-- Each piece starts where the one before it ends, at the offset that its pass computes. -/
  offset : ∀ k < (pieces w).length,
    chunkOffset (pieceLimit w.mode) k = ((pieces w).take k).flatten.length
  /-- No piece is empty, and its length fits an `int`. -/
  length : ∀ piece ∈ pieces w, 0 < piece.length ∧ piece.length ≤ intMax
  /-- LZ4 takes each piece, and the bound of its compressed length fits an `int`. -/
  bound : ∀ piece ∈ pieces w, 0 < compressBound piece.length ∧ compressBound piece.length ≤ intMax
  /-- A raw piece is copied into the buffer. -/
  copied : ∀ k piece, (pieces w)[k]? = some piece →
    ((pieces w).take k).flatten.length + piece.length ≤ w.contents.length
  /-- The capacity that LZ4 is passed for a piece is enough. -/
  capacity : ∀ k piece, (pieces w)[k]? = some piece →
    piece.length ≤ min intMax (w.contents.length - ((pieces w).take k).flatten.length)
  /-- What is decompressed in front of a piece are the pieces in front of it. -/
  inflated : w.mode ≠ .noCompress → ∀ k, inflate lz4 w.contents.length []
    ((encode lz4 w).chunks.take k) = some ((pieces w).take k).flatten

theorem pieces_eq (w : Write) : pieces w = chunks sqliteMaxLength w.contents := by
  unfold pieces pieceLimit
  split
  · rfl
  · rw [lz4Limit_eq]

theorem pieceLimit_eq (mode : CompressMode) : pieceLimit mode = sqliteMaxLength := by
  unfold pieceLimit
  split
  · rfl
  · exact lz4Limit_eq

/-- The pieces up to an index, and the one there. -/
theorem flatten_take_succ {pieces : List Bytes} {k : ℕ} {piece : Bytes} (h : pieces[k]? = some piece) :
    (pieces.take (k + 1)).flatten = (pieces.take k).flatten ++ piece := by
  rw [List.take_add_one, h, Option.toList_some, List.flatten_append, List.flatten_singleton]

/-- The pieces in front of an index are not longer than all of them. -/
theorem length_flatten_take_le (pieces : List Bytes) (k : ℕ) :
    (pieces.take k).flatten.length ≤ pieces.flatten.length := by
  have hsplit : (pieces.take k).flatten ++ (pieces.drop k).flatten = pieces.flatten := by
    rw [← List.flatten_append, List.take_append_drop]
  rw [← hsplit, List.length_append]
  exact Nat.le_add_right _ _

/-- LZ4 decompresses what `writePtr` compresses. -/
theorem inverts_compressor {lz4 : Lz4} (hlz4 : lz4.Inverts) {mode : CompressMode}
    (hmode : mode ≠ .noCompress) (source : Bytes) (capacity : ℕ)
    (hsmall : source.length ≤ lz4MaxInputSize) (hroom : source.length ≤ capacity) :
    lz4.decompressSafe (compressor lz4 mode source) capacity = some source := by
  cases mode with
  | noCompress => exact absurd rfl hmode
  | fastCompress => exact hlz4.compressDefault source capacity hsmall hroom
  | mediumCompress => exact hlz4.compressDefault source capacity hsmall hroom
  | slowCompress => exact hlz4.compressHC source capacity hsmall hroom

/-- What is stored are the pieces, compressed or as they are. -/
theorem chunks_encode (lz4 : Lz4) (w : Write) :
    (encode lz4 w).chunks = (pieces w).map (compressor lz4 w.mode) := by
  unfold encode pieces pieceLimit
  cases w.mode with
  | noCompress => exact (List.map_id _).symm
  | fastCompress => rfl
  | mediumCompress => rfl
  | slowCompress => rfl

/-- The loops keep to all of this, whatever the length. -/
theorem piecesFit {lz4 : Lz4} (hlz4 : lz4.Inverts) {w : Write} (hlen : w.contents.length ≤ lengthBound) :
    PiecesFit lz4 w := by
  obtain ⟨hflat, hcount, hall⟩ := chunks_spec hlen
  rw [← pieces_eq] at hflat hcount hall
  have hcopied : ∀ k piece, (pieces w)[k]? = some piece →
      ((pieces w).take k).flatten.length + piece.length ≤ w.contents.length := by
    intro k piece hpiece
    have hle := length_flatten_take_le (pieces w) (k + 1)
    rw [flatten_take_succ hpiece, List.length_append, hflat] at hle
    exact hle
  have hfits : ∀ piece ∈ pieces w, piece.length ≤ 500000000 := fun piece h => (hall piece h).2
  exact {
    covers := hflat
    stored := chunks_encode lz4 w
    offset := by
      intro k hk
      obtain ⟨hlt, hoffset⟩ := chunkOffset_of_lt hlen (hcount ▸ hk)
      rw [pieceLimit_eq, hoffset, pieces_eq, flatten_take_chunks hlen (pieces_eq w ▸ hk.le),
        List.length_take, Nat.min_eq_left hlt.le]
    length := by
      intro piece hpiece
      refine ⟨(hall piece hpiece).1, (hfits piece hpiece).trans ?_⟩
      unfold intMax
      omega
    bound := by
      intro piece hpiece
      have hsmall := hfits piece hpiece
      unfold compressBound lz4MaxInputSize intMax
      rw [if_neg (by omega)]
      omega
    copied := hcopied
    capacity := by
      intro k piece hpiece
      have hcopy := hcopied k piece hpiece
      have hsmall := hfits piece (List.mem_of_getElem? hpiece)
      unfold intMax
      omega
    inflated := by
      intro hmode k
      have hsizes : ∀ source ∈ (pieces w).take k, source.length ≤ chunkSize :=
        fun source h => (hall source (List.mem_of_mem_take h)).2
      have hroom : ([] : Bytes).length + ((pieces w).take k).flatten.length ≤ w.contents.length := by
        rw [List.length_nil, Nat.zero_add, ← hflat]
        exact length_flatten_take_le (pieces w) k
      rw [chunks_encode, ← List.map_take, inflate_map (inverts_compressor hlz4 hmode) hsizes hroom,
        List.nil_append] }

/-! ## A path that is new -/

namespace Db

/-- There is no row of the path. -/
structure NotStored (db : Db) (path : Bytes) : Prop where
  file : db.fileList.find? path = none
  contents : ∀ chunkidx, db.fileContents.find? (path, chunkidx) = none

/-- The rows of a record whose path is new. -/
theorem rows_store {db : Db} {path : Bytes} (h : db.NotStored path) (e : Encoded) :
    (db.store path e).rows path = e.chunks.map fun chunk => (e.row, chunk) := by
  have hchunks (chunkidx : ℕ) :
      (db.store path e).fileContents.find? (path, chunkidx) = e.chunks[chunkidx]? := by
    rw [find?_fileContents_store]
    split
    · rfl
    · next hnot =>
      have hbehind : e.chunks.length ≤ chunkidx := by
        by_contra hlt
        exact hnot ⟨rfl, not_le.mp hlt⟩
      rw [h.contents, List.getElem?_eq_none hbehind]
  unfold rows
  rw [find?_fileList_store, if_pos rfl, chunksOf_eq hchunks]

/-- A record whose path is new is read as it was written, unless it is empty. -/
theorem read_store {lz4 : Lz4} (hlz4 : lz4.Inverts) (fresh : ℕ → UInt8) {db : Db} {w : Write}
    (h : db.NotStored w.path) (hlen : w.contents.length ≤ lengthBound) :
    (db.store w.path (encode lz4 w)).read lz4 fresh w.path =
      .array (if 0 < w.contents.length then some w.contents else none) := by
  have hcount := length_encode lz4 hlen
  have hback := (assemble_append_iff hlz4 fresh w.path hlen []).mpr (fun _ hnil => by cases hnil)
  rw [List.append_nil] at hback
  unfold read
  rw [rows_store h]
  cases hchunks : (encode lz4 w).chunks with
  | nil =>
    have hempty : ¬ 0 < w.contents.length := by
      intro hpos
      have hsome : 0 < chunkCount w.contents.length := pieceCount_pos chunkSize_pos hpos
      rw [← hcount, hchunks] at hsome
      exact absurd hsome (lt_irrefl 0)
    rw [if_neg hempty]
    rfl
  | cons chunk rest =>
    have hpos : 0 < w.contents.length := by
      by_contra hnot
      have hzero : chunkCount w.contents.length = 0 := by
        rw [Nat.eq_zero_of_not_pos hnot]
        exact pieceCount_zero chunkSize_pos
      rw [← hcount, hchunks] at hzero
      cases hzero
    have hsnd : (((encode lz4 w).row, chunk) ::
        rest.map fun c => ((encode lz4 w).row, c)).map Prod.snd = chunk :: rest := by
      simp
    rw [if_pos hpos, List.map_cons]
    simp only
    rw [hsnd, ← hchunks]
    exact hback

end Db

end Sqlite

namespace SqliteArchive

open Sqlite

/-- The archive takes writes, is between two calls, and holds `db`. -/
structure Idle (db : Db) (a : SqliteArchive) : Prop extends Clean a db where
  mode : a.mode ≠ .read
  select : a.selectContentsStmt.stepped = false

/-- An archive that was just opened. -/
theorem idle_of_open {mode : OpenMode} {disk : Option Db} {a : SqliteArchive}
    (hopen : ofFile mode disk = some a) (hmode : mode ≠ .read) : ∃ db, Idle db a := by
  cases mode with
  | read => exact absurd rfl hmode
  | write =>
    cases hopen
    exact ⟨_, ⟨rfl, rfl, rfl, rfl, rfl⟩, hmode, rfl⟩
  | append =>
    cases disk with
    | none =>
      cases hopen
      exact ⟨_, ⟨rfl, rfl, rfl, rfl, rfl⟩, hmode, rfl⟩
    | some db =>
      cases hopen
      exact ⟨db, ⟨rfl, rfl, rfl, rfl, rfl⟩, hmode, rfl⟩

/-- A write in which no statement fails. -/
theorem Idle.writePtr (lz4 : Lz4) {db : Db} {a : SqliteArchive} (h : Idle db a) {w : Write}
    {env : SqliteEnv} (hok : AllOk env.verdicts) : (a.writePtr lz4 w env).2 = .done ∧
      Idle (db.store w.path (encode lz4 w)) (a.writePtr lz4 w env).1 := by
  obtain ⟨hdone, hwritten⟩ := writePtr_ok lz4 (w := w) h.toClean h.mode hok
  exact ⟨hdone, hwritten.toClean, hwritten.mode ▸ h.mode, hwritten.select ▸ h.select⟩

/-- A call that returns normally, and in which no statement fails. -/
theorem Idle.step (lz4 : Lz4) {db : Db} {a : SqliteArchive} (h : Idle db a) {c : Call × SqliteEnv}
    (hok : AllOk c.2.verdicts) (hnormal : (step lz4 a c).2.isNormal = true) :
    ∃ db, Idle db (step lz4 a c).1 := by
  obtain ⟨call, env⟩ := c
  cases call with
  | writePtr w => exact ⟨_, (h.writePtr lz4 hok).2⟩
  | read path =>
    have hreturns : ∀ message, (a.read lz4 path env).2 ≠ .threw message := by
      intro message hthrow
      have hanswer : (a.read lz4 path env).2.isNormal = true := hnormal
      rw [hthrow] at hanswer
      cases hanswer
    have hmode : (a.read lz4 path env).1.mode = a.mode := by
      obtain ⟨verdicts, stmt, heq⟩ := read_frame lz4 a path env
      rw [heq]
    exact ⟨db, read_clean lz4 path env h.toClean, hmode ▸ h.mode, read_stepped lz4 a path env hreturns⟩

/-- So does a run of such calls. -/
theorem Idle.exec (lz4 : Lz4) : ∀ {calls : List (Call × SqliteEnv)} {db : Db} {a : SqliteArchive},
    Idle db a → (∀ c ∈ calls, AllOk c.2.verdicts) →
      (∀ answer ∈ outputs (SqliteArchive.step lz4) a calls, answer.isNormal = true) →
        ∃ db, Idle db (exec (SqliteArchive.step lz4) a calls)
  | [], db, _, h, _, _ => ⟨db, h⟩
  | c :: calls, _, a, h, hok, hnormal => by
    rw [outputs_cons, List.forall_mem_cons] at hnormal
    rw [List.forall_mem_cons] at hok
    obtain ⟨db, hnext⟩ := h.step lz4 hok.1 hnormal.1
    exact hnext.exec lz4 hok.2 hnormal.2

end SqliteArchive

end Libgetar
