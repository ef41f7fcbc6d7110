import Libgetar.Lib.Bytes

/-!
# File streams

A `std::fstream` on one file: the bytes of the file, one position that reading and writing share,
and the two state flags. A read that meets the end of the file delivers what there is and sets both
flags; `seekg` clears `eof` only; with `fail` set, nothing has an effect. Positions are signed
64-bit numbers, so no byte lies at `maxOffset` or behind it; seeking or writing there is the one
error of the file system in this model.

Writes are described by `writeAt`, on lists of bytes. The lemmas about streams are stated for a
stream that is `Ready`: open, with no flag set.
-/

namespace Libgetar.Lib

/-- The first offset that does not fit a `std::streamoff`. -/
def maxOffset : ℕ := 2 ^ 63

/-- The bytes `s` after `new` has been written at `pos`. A hole in front of `pos` is filled with
zeros. -/
def writeAt (s : Bytes) (pos : ℕ) (new : Bytes) : Bytes :=
  s.take pos ++ List.replicate (pos - s.length) 0 ++ new ++ s.drop (pos + new.length)

/-- A `std::fstream`. -/
structure FStream where
  /-- The bytes of the file. -/
  bytes : Bytes
  /-- The position of the next byte that is read or written. -/
  pos : ℕ := 0
  /-- `eofbit`. -/
  eof : Bool := false
  /-- `failbit` or `badbit`. -/
  fail : Bool := false
  /-- The file was opened with `ios_base::out`. -/
  out : Bool
  /-- `is_open()`. -/
  isOpen : Bool := true
deriving DecidableEq

namespace FStream

/-- `read(buffer, n)`: the bytes that are delivered. -/
def read (n : ℕ) (s : FStream) : Bytes × FStream :=
  if s.eof || s.fail then ([], { s with fail := true })
  else if !s.isOpen then ([], { s with eof := true, fail := true })
  else
    let got := substr s.bytes s.pos n
    if got.length < n then (got, { s with pos := s.pos + got.length, eof := true, fail := true })
    else (got, { s with pos := s.pos + n })

/-- `tellg()`: a stream that has failed has no position. -/
def tellg (s : FStream) : Option ℕ := if s.fail then none else some s.pos

/-- `seekg(off)`. -/
def seekg (off : ℕ) (s : FStream) : FStream :=
  if s.fail then { s with eof := false }
  else if s.isOpen && off < maxOffset then { s with eof := false, pos := off }
  else { s with eof := false, fail := true }

/-- `seekp(off)`. -/
def seekp (off : ℕ) (s : FStream) : FStream :=
  if s.fail then s
  else if s.isOpen && off < maxOffset then { s with pos := off }
  else { s with fail := true }

/-- `write(new, n)`. -/
def write (new : Bytes) (s : FStream) : FStream :=
  if s.eof || s.fail then { s with fail := true }
  else if s.isOpen && s.out && s.pos + new.length < maxOffset then
    { s with bytes := writeAt s.bytes s.pos new, pos := s.pos + new.length }
  else { s with fail := true }

/-- `n` calls of `put(c)`. -/
def putN (c : UInt8) : ℕ → FStream → FStream
  | 0, s => s
  | n + 1, s => putN c n (s.write [c])

/-- `flush()`: what is written is in the file already. -/
def flush (s : FStream) : FStream := s

/-- `clear()`. -/
def clear (s : FStream) : FStream := { s with eof := false, fail := false }

/-- `close()`. -/
def close (s : FStream) : FStream := { s with isOpen := false }

/-- The stream is open and no flag is set. -/
structure Ready (s : FStream) : Prop where
  eof : s.eof = false
  fail : s.fail = false
  isOpen : s.isOpen = true

end FStream

/-! ## Writing into a list of bytes -/

/-- A write at the end of `s` replaces the front of what follows. -/
theorem writeAt_append (s t new : Bytes) :
    writeAt (s ++ t) s.length new = s ++ new ++ t.drop new.length := by
  have hhole : s.length - (s ++ t).length = 0 := by
    rw [List.length_append]
    omega
  unfold writeAt
  rw [hhole, List.take_left', List.drop_append, List.drop_eq_nil_of_le (by omega)]
  · simp
  · rfl

/-- Two writes, the second one where the first one ended. -/
theorem writeAt_writeAt (s a b : Bytes) (pos : ℕ) :
    writeAt (writeAt s pos a) (pos + a.length) b = writeAt s pos (a ++ b) := by
  have hlen : (s.take pos ++ List.replicate (pos - s.length) 0 ++ a).length = pos + a.length := by
    simp only [List.length_append, List.length_take, List.length_replicate]
    omega
  calc writeAt (writeAt s pos a) (pos + a.length) b
      = writeAt (s.take pos ++ List.replicate (pos - s.length) 0 ++ a ++ s.drop (pos + a.length))
          (s.take pos ++ List.replicate (pos - s.length) 0 ++ a).length b := by rw [hlen]; rfl
    _ = s.take pos ++ List.replicate (pos - s.length) 0 ++ a ++ b
          ++ (s.drop (pos + a.length)).drop b.length := writeAt_append _ _ _
    _ = writeAt s pos (a ++ b) := by
        simp only [writeAt, List.drop_drop, List.length_append, List.append_assoc, Nat.add_assoc]

namespace FStream

/-! ## What reading leaves -/

/-- Reading changes the position and the flags only. -/
theorem frame_read (s : FStream) (n : ℕ) : (s.read n).2.bytes = s.bytes ∧
    (s.read n).2.isOpen = s.isOpen ∧ (s.read n).2.out = s.out := by
  unfold read
  dsimp only
  split_ifs <;> exact ⟨rfl, rfl, rfl⟩

/-- So does seeking. -/
theorem frame_seekg (s : FStream) (off : ℕ) : (s.seekg off).bytes = s.bytes ∧
    (s.seekg off).isOpen = s.isOpen ∧ (s.seekg off).out = s.out := by
  unfold seekg
  split_ifs <;> exact ⟨rfl, rfl, rfl⟩

/-- A position is told of a stream that has not failed. -/
theorem tellg_eq_some_iff {s : FStream} {pos : ℕ} :
    s.tellg = some pos ↔ s.fail = false ∧ s.pos = pos := by
  rw [tellg]
  cases s.fail <;> simp

/-- Seeking clears `eof`. -/
theorem eof_seekg (s : FStream) (off : ℕ) : (s.seekg off).eof = false := by
  unfold seekg
  split_ifs <;> rfl

/-- Nothing is put into a file that was not opened for output. -/
theorem bytes_putN_of_not_out (c : UInt8) {s : FStream} (hout : s.out = false) (n : ℕ) :
    (s.putN c n).bytes = s.bytes := by
  induction n generalizing s with
  | zero => rfl
  | succ n ih =>
    have hone : s.write [c] = { s with fail := true } := by
      unfold write
      simp only [hout, Bool.and_false, Bool.false_and, Bool.false_eq_true, if_false, ite_self]
    rw [putN, hone]
    exact ih hout

/-- A stream that has failed delivers nothing, and stays as it is. -/
theorem read_of_fail {s : FStream} (h : s.fail = true) (n : ℕ) : s.read n = ([], s) := by
  obtain ⟨bytes, pos, eof, fail, out, isOpen⟩ := s
  obtain rfl : fail = true := h
  rw [read, Bool.or_true]
  rfl

/-- A seek on a stream that has failed has no effect but on `eof`. -/
theorem seekg_of_fail {s : FStream} (h : s.fail = true) (off : ℕ) :
    s.seekg off = { s with eof := false } := if_pos h

/-! ## Streams that are ready -/

/-- What a read delivers, wherever it begins. -/
theorem read_fst {s : FStream} (h : s.Ready) (n : ℕ) :
    (s.read n).1 = substr s.bytes s.pos n := by
  simp only [read, h.eof, h.fail, h.isOpen, Bool.or_self, Bool.not_true, Bool.false_eq_true,
    if_false]
  split
  · rfl
  · rfl

/-- A read fails exactly if it does not deliver what was asked for. -/
theorem flags_read {s : FStream} (h : s.Ready) (n : ℕ) :
    (s.read n).2.eof = decide ((substr s.bytes s.pos n).length < n) ∧
      (s.read n).2.fail = decide ((substr s.bytes s.pos n).length < n) := by
  simp only [read, h.eof, h.fail, h.isOpen, Bool.or_self, Bool.not_true, Bool.false_eq_true,
    if_false]
  by_cases hlt : (substr s.bytes s.pos n).length < n
  · simp only [hlt, if_true, decide_true, and_self]
  · rw [if_neg hlt, decide_eq_false hlt]
    exact ⟨rfl, rfl⟩

/-- A read inside the file delivers all the bytes asked for. -/
theorem read_of_le {s : FStream} (h : s.Ready) {n : ℕ} (hn : s.pos + n ≤ s.bytes.length) :
    s.read n = (substr s.bytes s.pos n, { s with pos := s.pos + n }) := by
  have hlen : (substr s.bytes s.pos n).length = n := by
    rw [substr, List.length_take, List.length_drop]
    omega
  simp only [read, h.eof, h.fail, h.isOpen, Bool.or_self, Bool.not_true, Bool.false_eq_true,
    if_false, hlen, lt_irrefl]

/-- A read that meets the end of the file delivers the rest of it and sets both flags. -/
theorem read_of_lt {s : FStream} (h : s.Ready) {n : ℕ} (hn : s.bytes.length < s.pos + n)
    (hpos : s.pos ≤ s.bytes.length) :
    s.read n = (s.bytes.drop s.pos,
      { s with pos := s.bytes.length, eof := true, fail := true }) := by
  have hgot : substr s.bytes s.pos n = s.bytes.drop s.pos := by
    rw [substr, List.take_of_length_le]
    rw [List.length_drop]
    omega
  have hlen : (s.bytes.drop s.pos).length < n := by
    rw [List.length_drop]
    omega
  have hend : s.pos + (s.bytes.drop s.pos).length = s.bytes.length := by
    rw [List.length_drop]
    omega
  simp only [read, h.eof, h.fail, h.isOpen, Bool.or_self, Bool.not_true, Bool.false_eq_true,
    if_false, hgot, hlen, if_true, hend]

theorem seekg_of_lt {s : FStream} (h : s.Ready) {off : ℕ} (hoff : off < maxOffset) :
    s.seekg off = { s with pos := off } := by
  simp only [seekg, h.eof, h.fail, h.isOpen, hoff, decide_true, Bool.and_self, Bool.false_eq_true,
    if_false, if_true]

theorem seekp_of_lt {s : FStream} (h : s.Ready) {off : ℕ} (hoff : off < maxOffset) :
    s.seekp off = { s with pos := off } := by
  simp only [seekp, h.fail, h.isOpen, hoff, decide_true, Bool.and_self, Bool.false_eq_true,
    if_false, if_true]

theorem write_of_lt {s : FStream} (h : s.Ready) (hout : s.out = true) {new : Bytes}
    (hlen : s.pos + new.length < maxOffset) :
    s.write new = { s with bytes := writeAt s.bytes s.pos new, pos := s.pos + new.length } := by
  simp only [write, h.eof, h.fail, h.isOpen, hout, hlen, Bool.or_self, decide_true, Bool.and_self,
    Bool.false_eq_true, if_false, if_true]

/-- Writing leaves the stream ready. -/
theorem Ready.write {s : FStream} (h : s.Ready) (hout : s.out = true) {new : Bytes}
    (hlen : s.pos + new.length < maxOffset) : (s.write new).Ready := by
  rw [write_of_lt h hout hlen]
  exact ⟨h.eof, h.fail, h.isOpen⟩

/-- Two writes in a row are one. -/
theorem write_write {s : FStream} (h : s.Ready) (hout : s.out = true) {a b : Bytes}
    (hlen : s.pos + a.length + b.length < maxOffset) :
    (s.write a).write b = s.write (a ++ b) := by
  have hfirst := write_of_lt h hout (show s.pos + a.length < maxOffset by omega)
  have hready : (s.write a).Ready := h.write hout (by omega)
  rw [hfirst] at hready
  rw [hfirst, write_of_lt hready hout hlen,
    write_of_lt h hout (by rw [List.length_append]; omega)]
  simp only [writeAt_writeAt, List.length_append, Nat.add_assoc]

/-- Putting characters one by one is writing them. -/
theorem putN_of_lt (c : UInt8) {n : ℕ} {s : FStream} (h : s.Ready) (hout : s.out = true)
    (hlen : s.pos + n < maxOffset) (hin : s.pos ≤ s.bytes.length) :
    s.putN c n = s.write (List.replicate n c) := by
  induction n generalizing s with
  | zero =>
    have hhole : s.pos - s.bytes.length = 0 := by omega
    have hnil : writeAt s.bytes s.pos [] = s.bytes := by simp [writeAt, hhole]
    rw [write_of_lt h hout (by simpa using hlen)]
    simp only [putN, List.replicate_zero, hnil, List.length_nil, Nat.add_zero]
  | succ n ih =>
    have hone : s.write [c] = { s with bytes := writeAt s.bytes s.pos [c], pos := s.pos + 1 } :=
      write_of_lt h hout (by rw [List.length_singleton]; omega)
    have hgrown : s.pos + 1 ≤ (writeAt s.bytes s.pos [c]).length := by
      simp only [writeAt, List.length_append, List.length_take, List.length_singleton]
      omega
    have hrest : (s.write [c]).putN c n = (s.write [c]).write (List.replicate n c) := by
      apply ih (h.write hout (by rw [List.length_singleton]; omega))
      · rw [hone]
        exact hout
      · rw [hone]
        simp only
        omega
      · rw [hone]
        exact hgrown
    rw [putN, hrest, write_write h hout]
    · rfl
    · rw [List.length_singleton, List.length_replicate]
      omega

end FStream

end Libgetar.Lib
