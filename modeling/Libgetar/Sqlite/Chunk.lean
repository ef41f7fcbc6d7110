import Libgetar.Archive
import Libgetar.Lib.Numeral

/-!
# Chunks of a record in a sqlite archive

`writePtr` cuts contents into chunks, compresses each one for the modes that ask for it, and stores
the chunks in rows of their own (`encode`). `read` puts the chunks together again (`assemble`). LZ4
is a parameter: a pair of compressors and a decompressor that never writes more than its capacity.

The chunks are consecutive, not empty, and cover the contents (`chunks_spec`). What `encode` has made
of contents `assemble` undoes, also when there are more chunks behind, as long as these add nothing
(`assemble_append_iff`).
-/

namespace Libgetar.Sqlite

open Lib

/-! ## The limits -/

/-- `SQLITE_MAX_LENGTH`, as the build files set it. -/
def sqliteMaxLength : ℕ := 1000000000

/-- `LZ4_MAX_INPUT_SIZE`. -/
def lz4MaxInputSize : ℕ := 0x7E000000

/-- `INT_MAX`. -/
def intMax : ℕ := 2 ^ 31 - 1

/-- The limit whose half is `LZ4_CHUNK_SIZE`. -/
def lz4Limit : ℕ := min lz4MaxInputSize sqliteMaxLength

/-- The limit whose half is `RAW_CHUNK_SIZE`. -/
def rawLimit : ℕ := sqliteMaxLength

/-- The greatest length for which no offset of a chunk overflows. Longer contents do not fit into the
memory of a process. -/
def lengthBound : ℕ := 2 ^ 64 / sqliteMaxLength * (sqliteMaxLength / 2)

/-- The length of the longest array, `PTRDIFF_MAX`. -/
def arrayBound : ℕ := 2 ^ 63 - 1

/-- `chunkidx*CHUNK_SIZE`: the macro is not in parentheses, so the product is halved, and it is taken
as a `size_t`. -/
def chunkOffset (limit chunkidx : ℕ) : ℕ := chunkidx * limit % 2 ^ 64 / 2

/-! ## Cutting -/

/-- The loop over the chunks, from `chunkidx` on. -/
def chunksFrom (limit : ℕ) (contents : Bytes) : ℕ → ℕ → List Bytes
  | 0, _ => []
  | fuel + 1, chunkidx =>
    let offset := chunkOffset limit chunkidx
    if offset < contents.length then
      substr contents offset (min (limit / 2) (contents.length - offset)) ::
        chunksFrom limit contents fuel (chunkidx + 1)
    else []

/-- The chunks of the contents. The offsets increase, so the loop runs at most once for each
byte. -/
def chunks (limit : ℕ) (contents : Bytes) : List Bytes :=
  chunksFrom limit contents (contents.length + 1) 0

/-- LZ4: `LZ4_compress_default` and `LZ4_compress_HC` into a buffer of `LZ4_compressBound` bytes, and
`LZ4_decompress_safe`, where `none` is a negative result. -/
structure Lz4 where
  compressDefault : Bytes → Bytes
  compressHC : Bytes → Bytes
  decompressSafe : Bytes → ℕ → Option Bytes
  length_le : ∀ {block : Bytes} {capacity : ℕ} {out : Bytes},
    decompressSafe block capacity = some out → out.length ≤ capacity

/-- Decompressing a compressed block returns the original, when there is room for it. -/
structure Lz4.Inverts (lz4 : Lz4) : Prop where
  compressDefault : ∀ source capacity, source.length ≤ lz4MaxInputSize → source.length ≤ capacity →
    lz4.decompressSafe (lz4.compressDefault source) capacity = some source
  compressHC : ∀ source capacity, source.length ≤ lz4MaxInputSize → source.length ≤ capacity →
    lz4.decompressSafe (lz4.compressHC source) capacity = some source

/-- What is stored for a record. -/
structure Encoded where
  uncompressedSize : ℕ
  compressedSize : ℕ
  compressLevel : ℕ
  chunks : List Bytes

/-- The part of `writePtr` in front of the statements. -/
def encode (lz4 : Lz4) (w : Write) : Encoded :=
  let compressed (compress : Bytes → Bytes) : Encoded :=
    let targets := (chunks lz4Limit w.contents).map compress
    ⟨w.contents.length, (targets.map List.length).sum, 1, targets⟩
  match w.mode with
  | .fastCompress => compressed lz4.compressDefault
  | .mediumCompress => compressed lz4.compressDefault
  | .slowCompress => compressed lz4.compressHC
  | .noCompress => ⟨w.contents.length, w.contents.length, 0, chunks rawLimit w.contents⟩

/-! ## Putting together -/

/-- The loop over LZ4 chunks, where `out` is what is decompressed so far. -/
def inflate (lz4 : Lz4) (uncompSize : ℕ) : Bytes → List Bytes → Option Bytes
  | out, [] => some out
  | out, chunk :: rest =>
    match lz4.decompressSafe chunk (min intMax (uncompSize - out.length)) with
    | none => none
    | some bytes => inflate lz4 uncompSize (out ++ bytes) rest

/-- A buffer of `size` bytes of which the front is filled. -/
def buffer (fresh : ℕ → UInt8) (size : ℕ) (filled : Bytes) : Bytes :=
  filled ++ ((List.range size).map fresh).drop filled.length

/-- The part of `read` behind the statements. The array for the contents has at most `heap` bytes. -/
def assemble (lz4 : Lz4) (heap : ℕ) (fresh : ℕ → UInt8) (path : Bytes) (uncompSize compLevel : ℕ)
    (chunks : List Bytes) : Answer :=
  if compLevel = 0 then
    match chunks with
    | [chunk] => .array (some chunk)
    | _ =>
      if heap < uncompSize then .threw badAlloc
      else if uncompSize < chunks.flatten.length then .overflow
      else .array (some (buffer fresh uncompSize chunks.flatten))
  else if compLevel = 1 then
    if heap < uncompSize then .threw badAlloc
    else
      match inflate lz4 uncompSize [] chunks with
      | none => .threw (lit "Error decompressing record at " ++ path ++
          lit ": LZ4 decompression error")
      | some out => .array (some (buffer fresh uncompSize out))
  else .threw (lit "Error decompressing record at " ++ path ++ lit ": unknown compression " ++
    numeral 10 compLevel)

/-! ## The chunks of contents -/

/-- The number of pieces of length `n` that cover `length` bytes. -/
def pieceCount (n length : ℕ) : ℕ := (length + (n - 1)) / n

theorem pieceCount_zero {n : ℕ} (hn : 0 < n) : pieceCount n 0 = 0 :=
  Nat.div_eq_of_lt (by omega)

/-- The number of pieces behind the first one. -/
theorem pieceCount_of_pos {n length : ℕ} (hn : 0 < n) (hlen : 0 < length) :
    pieceCount n length = pieceCount n (length - n) + 1 := by
  unfold pieceCount
  rcases Nat.lt_or_ge length n with hlt | hge
  · -- A single piece.
    have hone : (length + (n - 1)) / n = 1 := Nat.div_eq_of_lt_le (by omega) (by omega)
    rw [Nat.sub_eq_zero_of_le hlt.le, Nat.zero_add, Nat.div_eq_of_lt (show n - 1 < n by omega), hone]
  · have hback : length + (n - 1) = length - n + (n - 1) + n := by omega
    rw [hback, Nat.add_div_right _ hn]

theorem pieceCount_pos {n length : ℕ} (hn : 0 < n) (hlen : 0 < length) : 0 < pieceCount n length := by
  rw [pieceCount_of_pos hn hlen]
  omega

section

variable {limit n : ℕ} {contents : Bytes} (hn : 0 < n) (hhalf : limit / 2 = n)
  (hoffset : ∀ chunkidx, chunkidx * n < contents.length + n →
    chunkOffset limit chunkidx = chunkidx * n)
include hn hhalf hoffset

/-- From a chunk on, where no offset overflows, the chunks cover the rest of the contents, none is
empty or too long, and their number is as expected. The induction is on the fuel. -/
theorem chunksFrom_spec {fuel : ℕ} : ∀ {chunkidx : ℕ}, contents.length < fuel + chunkidx →
    chunkidx * n < contents.length + n →
    (chunksFrom limit contents fuel chunkidx).flatten = contents.drop (chunkidx * n) ∧
      (chunksFrom limit contents fuel chunkidx).length =
        pieceCount n (contents.length - chunkidx * n) ∧
      ∀ chunk ∈ chunksFrom limit contents fuel chunkidx, 0 < chunk.length ∧ chunk.length ≤ n := by
  induction fuel with
  | zero =>
    intro chunkidx hfuel _
    have hdone : contents.length ≤ chunkidx * n := by
      have := Nat.le_mul_of_pos_right chunkidx hn
      omega
    refine ⟨?_, ?_, by simp [chunksFrom]⟩
    · rw [List.drop_eq_nil_of_le hdone, chunksFrom, List.flatten_nil]
    · rw [Nat.sub_eq_zero_of_le hdone, chunksFrom, List.length_nil, pieceCount_zero hn]
  | succ fuel ih =>
    intro chunkidx hfuel hidx
    simp only [chunksFrom, hoffset chunkidx hidx, hhalf]
    split
    · -- One more chunk, and then those of the rest.
      next hlt =>
      have hnext : (chunkidx + 1) * n = chunkidx * n + n := Nat.succ_mul _ _
      obtain ⟨hflat, hcount, hall⟩ := ih (show contents.length < fuel + (chunkidx + 1) by omega)
        (by omega)
      have hrest : 0 < contents.length - chunkidx * n := by omega
      have hchunk : substr contents (chunkidx * n) (min n (contents.length - chunkidx * n)) =
          (contents.drop (chunkidx * n)).take n := by
        rw [substr, ← List.length_drop, ← List.take_eq_take_min]
      rw [hchunk]
      refine ⟨?_, ?_, ?_⟩
      · rw [List.flatten_cons, hflat, hnext, ← List.drop_drop, List.take_append_drop]
      · rw [List.length_cons, hcount, pieceCount_of_pos hn hrest, hnext, Nat.sub_sub]
      · intro chunk hmem
        rcases List.mem_cons.mp hmem with rfl | hmem
        · rw [List.length_take, List.length_drop]
          omega
        · exact hall chunk hmem
    · next hge =>
      have hdone : contents.length ≤ chunkidx * n := by omega
      refine ⟨?_, ?_, by simp⟩
      · rw [List.drop_eq_nil_of_le hdone, List.flatten_nil]
      · rw [Nat.sub_eq_zero_of_le hdone, List.length_nil, pieceCount_zero hn]

end

/-- The limit of both kinds of chunks. -/
theorem lz4Limit_eq : lz4Limit = sqliteMaxLength := by
  unfold lz4Limit lz4MaxInputSize sqliteMaxLength
  omega

/-- The length of all chunks but the last. -/
def chunkSize : ℕ := sqliteMaxLength / 2

/-- The number of chunks of so many bytes. -/
def chunkCount (length : ℕ) : ℕ := pieceCount chunkSize length

theorem chunkSize_pos : 0 < chunkSize := by
  unfold chunkSize sqliteMaxLength
  omega

/-- Halving the product is multiplying by the half, as long as nothing overflows. -/
theorem chunkOffset_eq {chunkidx length : ℕ} (h : chunkidx * chunkSize < length + chunkSize)
    (hlen : length ≤ lengthBound) : chunkOffset sqliteMaxLength chunkidx = chunkidx * chunkSize := by
  unfold lengthBound at hlen
  unfold chunkOffset
  unfold chunkSize sqliteMaxLength at *
  omega

/-- The chunks cover the contents, none is empty or too long, and their number depends on the length
only. -/
theorem chunks_spec {contents : Bytes} (hlen : contents.length ≤ lengthBound) :
    (chunks sqliteMaxLength contents).flatten = contents ∧
      (chunks sqliteMaxLength contents).length = chunkCount contents.length ∧
      ∀ chunk ∈ chunks sqliteMaxLength contents, 0 < chunk.length ∧ chunk.length ≤ chunkSize := by
  have hspec := chunksFrom_spec chunkSize_pos rfl (fun chunkidx h => chunkOffset_eq h hlen)
    (show contents.length < contents.length + 1 + 0 by omega)
    (by rw [Nat.zero_mul]; exact Nat.add_pos_right _ chunkSize_pos)
  rwa [Nat.zero_mul, List.drop_zero, Nat.sub_zero] at hspec

/-! ## Reading back -/

/-- A buffer that is filled. -/
theorem buffer_eq (fresh : ℕ → UInt8) (filled : Bytes) :
    buffer fresh filled.length filled = filled := by
  rw [buffer, List.drop_eq_nil_of_le, List.append_nil]
  rw [List.length_map, List.length_range]

/-- Decompressing never writes past the end of the buffer. -/
theorem length_le_of_inflate {lz4 : Lz4} {uncompSize : ℕ} :
    ∀ {chunks : List Bytes} {out result : Bytes}, out.length ≤ uncompSize →
      inflate lz4 uncompSize out chunks = some result → result.length ≤ uncompSize
  | [], out, result, hout, h => by
    cases h
    exact hout
  | chunk :: rest, out, result, hout, h => by
    rw [inflate] at h
    split at h
    · cases h
    · next bytes hbytes =>
      have hroom := lz4.length_le hbytes
      refine length_le_of_inflate ?_ h
      rw [List.length_append]
      omega

/-- Chunks that were compressed one by one are decompressed behind each other. -/
theorem inflate_map {lz4 : Lz4} {compress : Bytes → Bytes} {uncompSize : ℕ}
    (hinverts : ∀ source capacity, source.length ≤ lz4MaxInputSize → source.length ≤ capacity →
      lz4.decompressSafe (compress source) capacity = some source) :
    ∀ {sources : List Bytes} {out : Bytes}, (∀ source ∈ sources, source.length ≤ chunkSize) →
      out.length + sources.flatten.length ≤ uncompSize →
      inflate lz4 uncompSize out (sources.map compress) = some (out ++ sources.flatten)
  | [], out, _, _ => by simp [inflate]
  | source :: rest, out, hall, hfit => by
    have hsource := hall source List.mem_cons_self
    rw [List.flatten_cons, List.length_append] at hfit
    have hroom : source.length ≤ min intMax (uncompSize - out.length) := by
      unfold intMax
      unfold chunkSize sqliteMaxLength at hsource
      omega
    have hsmall : source.length ≤ lz4MaxInputSize := by
      unfold lz4MaxInputSize
      unfold chunkSize sqliteMaxLength at hsource
      omega
    have hrest : (out ++ source).length + rest.flatten.length ≤ uncompSize := by
      rw [List.length_append]
      omega
    rw [List.map_cons, inflate, hinverts source _ hsmall hroom]
    simp only
    rw [inflate_map hinverts (fun s hs => hall s (List.mem_cons_of_mem _ hs)) hrest,
      List.flatten_cons, List.append_assoc]

/-- The chunk adds nothing behind contents that are complete already. -/
def Vanishes (lz4 : Lz4) (mode : CompressMode) (chunk : Bytes) : Prop :=
  match mode with
  | .noCompress => chunk = []
  | _ => (lz4.decompressSafe chunk 0).isSome

/-- Decompressing chunks behind each other. -/
theorem inflate_append (lz4 : Lz4) (uncompSize : ℕ) (chunks chunks' : List Bytes) : ∀ out,
    inflate lz4 uncompSize out (chunks ++ chunks') =
      (inflate lz4 uncompSize out chunks).bind fun out => inflate lz4 uncompSize out chunks' := by
  induction chunks with
  | nil => exact fun out => rfl
  | cons chunk rest ih =>
    intro out
    rw [List.cons_append, inflate, inflate]
    split
    · rfl
    · exact ih _

/-- Into a buffer that is full, chunks are decompressed if each of them needs no room. -/
theorem inflate_full (lz4 : Lz4) (out : Bytes) (chunks : List Bytes) :
    inflate lz4 out.length out chunks =
      if chunks.all fun chunk => (lz4.decompressSafe chunk 0).isSome then some out else none := by
  induction chunks with
  | nil => rfl
  | cons chunk rest ih =>
    rw [inflate, Nat.sub_self, Nat.min_zero, List.all_cons]
    cases hchunk : lz4.decompressSafe chunk 0 with
    | none => rfl
    | some bytes =>
      have hnil : bytes = [] := List.eq_nil_of_length_eq_zero (Nat.le_zero.mp (lz4.length_le hchunk))
      simp only [hnil, List.append_nil, Option.isSome_some, Bool.true_and]
      exact ih

/-- Uncompressed chunks: those behind the contents have to be empty. -/
theorem assemble_raw_iff (lz4 : Lz4) {heap : ℕ} (fresh : ℕ → UInt8) (path : Bytes)
    {own : List Bytes} (stale : List Bytes) (hheap : own.flatten.length ≤ heap) :
    assemble lz4 heap fresh path own.flatten.length 0 (own ++ stale) = .array (some own.flatten) ↔
      ∀ chunk ∈ stale, chunk = [] := by
  have hflat : (own ++ stale).flatten = own.flatten ++ stale.flatten := List.flatten_append
  rw [← List.flatten_eq_nil_iff]
  unfold assemble
  rw [if_pos rfl]
  split
  · next chunk hchunks =>
    -- A single chunk is returned as it is.
    rw [hchunks, List.flatten_singleton] at hflat
    rw [hflat, Answer.array.injEq, Option.some.injEq, List.append_right_eq_self]
  · rw [if_neg (not_lt.mpr hheap), hflat, List.length_append]
    by_cases hstale : stale.flatten = []
    · rw [hstale, List.length_nil, if_neg (by omega), List.append_nil, buffer_eq]
      simp only
    · have hpos : 0 < stale.flatten.length := List.length_pos_of_ne_nil hstale
      rw [if_pos (by omega)]
      simp only [reduceCtorEq, hstale]

/-- Compressed chunks: those behind the contents have to need no room. -/
theorem assemble_compressed_iff {lz4 : Lz4} {heap : ℕ} (fresh : ℕ → UInt8) (path : Bytes)
    {contents : Bytes} {own stale : List Bytes} (hheap : contents.length ≤ heap)
    (hown : inflate lz4 contents.length [] own = some contents) :
    assemble lz4 heap fresh path contents.length 1 (own ++ stale) = .array (some contents) ↔
      ∀ chunk ∈ stale, (lz4.decompressSafe chunk 0).isSome := by
  rw [← List.all_eq_true]
  unfold assemble
  rw [if_neg (by decide), if_pos rfl, if_neg (not_lt.mpr hheap), inflate_append, hown,
    Option.bind_some, inflate_full]
  cases stale.all fun chunk => (lz4.decompressSafe chunk 0).isSome with
  | true => simp only [if_true, buffer_eq]
  | false => simp only [Bool.false_eq_true, if_false, reduceCtorEq]

/-- Contents whose offsets do not overflow fit into an array. -/
theorem lengthBound_le : lengthBound ≤ arrayBound := by
  unfold lengthBound arrayBound sqliteMaxLength
  omega

/-- The chunks of a record followed by others are put together to its contents exactly if the others
vanish. -/
theorem assemble_append_iff {lz4 : Lz4} (hlz4 : lz4.Inverts) (fresh : ℕ → UInt8) (path : Bytes)
    {w : Write} (hlen : w.contents.length ≤ lengthBound) (stale : List Bytes) :
    assemble lz4 arrayBound fresh path (encode lz4 w).uncompressedSize (encode lz4 w).compressLevel
        ((encode lz4 w).chunks ++ stale) = .array (some w.contents) ↔
      ∀ chunk ∈ stale, Vanishes lz4 w.mode chunk := by
  obtain ⟨hflat, -, hall⟩ := chunks_spec hlen
  have hheap : w.contents.length ≤ arrayBound := hlen.trans lengthBound_le
  have hsizes : ∀ chunk ∈ chunks sqliteMaxLength w.contents, chunk.length ≤ chunkSize :=
    fun chunk h => (hall chunk h).2
  have hroom : ([] : Bytes).length + (chunks sqliteMaxLength w.contents).flatten.length ≤
      w.contents.length := by
    rw [hflat, List.length_nil, Nat.zero_add]
  have hinflate (compress : Bytes → Bytes) (hinverts : ∀ source capacity,
      source.length ≤ lz4MaxInputSize → source.length ≤ capacity →
        lz4.decompressSafe (compress source) capacity = some source) :
      inflate lz4 w.contents.length [] ((chunks lz4Limit w.contents).map compress) =
        some w.contents := by
    rw [lz4Limit_eq, inflate_map hinverts hsizes hroom, hflat, List.nil_append]
  unfold encode Vanishes
  cases w.mode with
  | fastCompress => exact assemble_compressed_iff fresh path hheap (hinflate _ hlz4.compressDefault)
  | mediumCompress => exact assemble_compressed_iff fresh path hheap (hinflate _ hlz4.compressDefault)
  | slowCompress => exact assemble_compressed_iff fresh path hheap (hinflate _ hlz4.compressHC)
  | noCompress =>
    rw [← hflat] at hheap
    have hraw := assemble_raw_iff lz4 fresh path stale hheap
    rw [hflat] at hraw
    exact hraw

/-- As many chunks are stored as the length asks for, whatever the mode. -/
theorem length_encode (lz4 : Lz4) {w : Write} (hlen : w.contents.length ≤ lengthBound) :
    (encode lz4 w).chunks.length = chunkCount w.contents.length := by
  obtain ⟨-, hcount, -⟩ := chunks_spec hlen
  unfold encode
  split
  all_goals simp only [List.length_map, lz4Limit_eq, rawLimit, hcount]

end Libgetar.Sqlite
