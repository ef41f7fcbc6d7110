import Libgetar.Lib.Orbit
import Libgetar.Tar.Scan

/-!
# The scan of any file

What the constructor's loop does with bytes that need not be a tar file. As long as nothing ends it,
the loop is determined by two numbers, the position from which the next header is read and the
variable `offset`, and `advance` is one iteration on them: it passes over a block that only lacks
the magic, and behind a header it goes where the decoded size says, modulo `2 ^ 64`.

So the loop ends exactly if the orbit of `advance` does (`loop_ends_iff`), which is in a finite set:
exactly if it does not return to a block with the same `offset`. A negative size can lead back. With
sizes below `2 ^ 62` every step goes up (`not_returns_of_sizesBelow`).
-/

namespace Libgetar

open Lib

namespace TarArchive

/-! ## One iteration -/

/-- One iteration from a position and an `offset`, unless it is the last one that reads a block of
the file. -/
def advance (bytes : Bytes) (p : ℕ × ℕ) : Option (ℕ × ℕ) :=
  let header := substr bytes p.1 headerLength
  let magic := substr header magicOffset 6
  let offset := (p.2 + (headerLength + blockCeil (headerSize header))) % sizeBound
  if bytes.length < p.1 + headerLength then none
  else if magic.head? = some 0 then
    if header.all (· == 0) then none else some (p.1 + headerLength, p.2)
  else if magic.take 5 ≠ lit "ustar" then none
  else if offset < maxOffset then some (offset, offset)
  else none

/-- The loop is at a position of the file, with the `offset`. -/
structure At (bytes : Bytes) (s : Scan) (p : ℕ × ℕ) : Prop where
  bytes : s.file.bytes = bytes
  ready : s.file.Ready
  pos : s.file.pos = p.1
  offset : s.offset = p.2
  done : s.done = false

variable {bytes : Bytes} {s : Scan} {p p' : ℕ × ℕ}

/-- The zeroed block of a read that delivers nothing is empty. -/
theorem empty_block : (substr (List.replicate headerLength (0 : UInt8)) magicOffset 6).head? =
    some 0 ∧ (List.replicate headerLength (0 : UInt8)).all (· == 0) = true :=
  ⟨by decide, all_replicate_zero headerLength⟩

/-- A stream that has failed delivers nothing, which ends the loop. -/
theorem step_of_fail (hfail : s.file.fail = true) : s.step = .ok { s with done := true } := by
  obtain ⟨hhead, hzero⟩ := empty_block
  simp only [Scan.step, FStream.read_of_fail hfail, List.nil_append, List.length_nil, Nat.sub_zero,
    hhead, if_true, hzero, Bool.or_true]

/-- So the loop ends when the stream has failed. -/
theorem loop_of_fail (hfail : s.file.fail = true) : ∃ result, Scan.loop 2 s = some result := by
  by_cases hstop : s.file.eof = true ∨ s.done = true
  · exact ⟨_, loop_of_stop hstop 1⟩
  · rw [not_or, Bool.not_eq_true, Bool.not_eq_true] at hstop
    rw [loop_of_go hstop.1 hstop.2, step_of_fail hfail]
    exact ⟨_, loop_of_stop (Or.inr rfl) 0⟩

/-- The first iteration of a loop that is not at its end. -/
theorem At.loop_succ (h : At bytes s p) (fuel : ℕ) : Scan.loop (fuel + 1) s =
    match s.step with
    | .error message => some (.error message)
    | .ok s' => Scan.loop fuel s' :=
  loop_of_go h.ready.eof h.done fuel

/-- A header block inside the file is read whole. -/
theorem At.read_whole (h : At bytes s p) (hwhole : p.1 + headerLength ≤ bytes.length) :
    ∃ file, s.file.read headerLength = (substr bytes p.1 headerLength, file) ∧ file.Ready ∧
      file.bytes = bytes ∧ file.pos = p.1 + headerLength := by
  have hread := FStream.read_of_le h.ready (n := headerLength) (by rw [h.bytes, h.pos]; exact hwhole)
  refine ⟨{ s.file with pos := s.file.pos + headerLength }, ?_, ?_, h.bytes, ?_⟩
  · rw [hread, ← h.bytes, ← h.pos]
  · exact ⟨h.ready.eof, h.ready.fail, h.ready.isOpen⟩
  · exact congrArg (· + headerLength) h.pos

/-- A header block that the file ends in sets the flags. -/
theorem At.read_short (h : At bytes s p) (hshort : bytes.length < p.1 + headerLength) :
    ∃ got file, s.file.read headerLength = (got, file) ∧ file.eof = true ∧ file.fail = true := by
  have hgot : (substr s.file.bytes s.file.pos headerLength).length < headerLength := by
    rw [substr, List.length_take, List.length_drop, h.bytes, h.pos]
    unfold headerLength at hshort ⊢
    omega
  simp only [FStream.read, h.ready.eof, h.ready.fail, h.ready.isOpen, hgot, Bool.or_self,
    Bool.not_true, Bool.false_eq_true, if_false, if_true]
  exact ⟨_, _, rfl, rfl, rfl⟩

/-- What an iteration makes of a block: it is passed over, it ends the loop, or it is a header. -/
theorem step_of_read {got : Bytes} {file : FStream}
    (hread : s.file.read headerLength = (got, file)) :
    let header : Bytes := got ++ List.replicate (headerLength - got.length) 0
    ((substr header magicOffset 6).head? = some 0 ∧
      s.step = .ok { s with file := file, done := s.done || header.all (· == 0) }) ∨
    ((substr header magicOffset 6).head? ≠ some 0 ∧
      (substr header magicOffset 6).take 5 ≠ lit "ustar" ∧
      ((∃ message, s.step = .error message) ∨ s.step = .ok { s with file := file, done := true })) ∨
    ((substr header magicOffset 6).head? ≠ some 0 ∧
      (substr header magicOffset 6).take 5 = lit "ustar" ∧
      s.step = .ok (s.add file (headerName header) (headerSize header))) := by
  intro header
  simp only [Scan.step, hread]
  by_cases hhead : (substr header magicOffset 6).head? = some 0
  · exact Or.inl ⟨hhead, if_pos hhead⟩
  · rw [if_neg hhead]
    by_cases hmagic : (substr header magicOffset 6).take 5 = lit "ustar"
    · exact Or.inr (Or.inr ⟨hhead, hmagic, if_neg (not_not.mpr hmagic)⟩)
    · rw [if_pos hmagic]
      refine Or.inr (Or.inl ⟨hhead, hmagic, ?_⟩)
      split
      · exact Or.inl ⟨_, rfl⟩
      · exact Or.inr rfl

/-- What `advance` looks at of a block that is read whole. -/
theorem advance_of_whole (hwhole : p.1 + headerLength ≤ bytes.length) :
    substr bytes p.1 headerLength ++
        List.replicate (headerLength - (substr bytes p.1 headerLength).length) 0 =
      substr bytes p.1 headerLength := by
  have hlen : (substr bytes p.1 headerLength).length = headerLength := by
    rw [substr, List.length_take, List.length_drop]
    omega
  rw [hlen, Nat.sub_self, List.replicate_zero, List.append_nil]

/-- An iteration that goes on. -/
theorem At.step_some (h : At bytes s p) (hp : advance bytes p = some p') :
    ∃ s', s.step = .ok s' ∧ At bytes s' p' := by
  have hwhole : p.1 + headerLength ≤ bytes.length := by
    by_contra hshort
    simp only [advance, if_pos (not_le.mp hshort)] at hp
    cases hp
  obtain ⟨file, hread, hready, hbytes, hpos⟩ := h.read_whole hwhole
  have hstep := step_of_read hread
  simp only [advance_of_whole hwhole] at hstep
  simp only [advance, if_neg (not_lt.mpr hwhole)] at hp
  generalize substr bytes p.1 headerLength = header at hp hstep
  rcases hstep with ⟨hhead, hstep⟩ | ⟨hhead, hmagic, -⟩ | ⟨hhead, hmagic, hstep⟩
  · -- A block that is passed over.
    rw [if_pos hhead] at hp
    split at hp
    · cases hp
    · next hzero =>
      obtain rfl := Option.some.inj hp
      refine ⟨_, hstep, hbytes, hready, hpos, h.offset, ?_⟩
      simp only [h.done, Bool.false_or]
      exact Bool.eq_false_iff.mpr hzero
  · rw [if_neg hhead, if_pos hmagic] at hp
    cases hp
  · -- A header.
    rw [if_neg hhead, if_neg (not_not.mpr hmagic)] at hp
    split at hp
    · next hsmall =>
      obtain rfl := Option.some.inj hp
      refine ⟨_, hstep, ?_⟩
      simp only [Scan.add, h.offset, FStream.seekg_of_lt hready hsmall]
      exact ⟨hbytes, ⟨hready.eof, hready.fail, hready.isOpen⟩, rfl, rfl, h.done⟩
    · cases hp

/-- A seek on a stream that has failed leaves it so, and a position that is too large makes it fail. -/
theorem seekg_fail {file : FStream} {off : ℕ} (h : file.fail = true ∨ maxOffset ≤ off) :
    (file.seekg off).fail = true := by
  unfold FStream.seekg
  split
  · next hfail => exact hfail
  · next hfail =>
    rw [if_neg]
    rw [Bool.and_eq_true, decide_eq_true_eq]
    exact fun hand => (h.resolve_left hfail).not_gt hand.2

/-- An iteration that does not go on is followed by at most two more. -/
theorem At.loop_none (h : At bytes s p) (hp : advance bytes p = none) :
    ∃ result, Scan.loop 3 s = some result := by
  rw [h.loop_succ]
  by_cases hwhole : p.1 + headerLength ≤ bytes.length
  · obtain ⟨file, hread, hready, hbytes, hpos⟩ := h.read_whole hwhole
    have hstep := step_of_read hread
    simp only [advance_of_whole hwhole] at hstep
    simp only [advance, if_neg (not_lt.mpr hwhole)] at hp
    generalize substr bytes p.1 headerLength = header at hp hstep
    rcases hstep with ⟨hhead, hstep⟩ | ⟨-, -, ⟨message, hstep⟩ | hstep⟩ | ⟨hhead, hmagic, hstep⟩
    · rw [if_pos hhead] at hp
      have hzero : header.all (· == 0) = true := by
        by_contra hne
        rw [if_neg hne] at hp
        cases hp
      rw [hstep]
      exact ⟨_, loop_of_stop (Or.inr (by simp only [hzero, Bool.or_true])) 1⟩
    · rw [hstep]
      exact ⟨_, rfl⟩
    · rw [hstep]
      exact ⟨_, loop_of_stop (Or.inr rfl) 1⟩
    · -- A header that sends the stream to a position that is too large.
      rw [if_neg hhead, if_neg (not_not.mpr hmagic)] at hp
      have hlarge : maxOffset ≤
          (s.offset + (headerLength + blockCeil (headerSize header))) % sizeBound := by
        by_contra hsmall
        rw [h.offset] at hsmall
        rw [if_pos (not_le.mp hsmall)] at hp
        cases hp
      rw [hstep]
      exact loop_of_fail (seekg_fail (Or.inr hlarge))
  · -- The file ends in the block.
    obtain ⟨got, file, hread, heof, hfail⟩ := h.read_short (not_le.mp hwhole)
    rcases step_of_read hread with ⟨-, hstep⟩ | ⟨-, -, ⟨message, hstep⟩ | hstep⟩ | ⟨-, -, hstep⟩
    · rw [hstep]
      exact ⟨_, loop_of_stop (Or.inl heof) 1⟩
    · rw [hstep]
      exact ⟨_, rfl⟩
    · rw [hstep]
      exact ⟨_, loop_of_stop (Or.inr rfl) 1⟩
    · rw [hstep]
      exact loop_of_fail (seekg_fail (Or.inl hfail))

/-! ## The whole loop -/

/-- The loop ends exactly if the orbit of `advance` does. -/
theorem At.loop_ends_iff (h : At bytes s p) :
    (∃ fuel result, Scan.loop fuel s = some result) ↔ ∃ k, orbit (advance bytes) p k = none := by
  constructor
  · rintro ⟨fuel, result, hloop⟩
    induction fuel generalizing s p with
    | zero => cases hloop
    | succ fuel ih =>
      cases hp : advance bytes p with
      | none => exact ⟨1, hp⟩
      | some p' =>
        obtain ⟨s', hstep, hnext⟩ := h.step_some hp
        rw [h.loop_succ, hstep] at hloop
        obtain ⟨k, hk⟩ := ih hnext hloop
        refine ⟨1 + k, ?_⟩
        have hone : orbit (advance bytes) p 1 = some p' := hp
        rw [orbit_add, hone]
        exact hk
  · rintro ⟨k, hk⟩
    induction k generalizing s p with
    | zero => cases hk
    | succ k ih =>
      cases hp : advance bytes p with
      | none =>
        obtain ⟨result, hresult⟩ := h.loop_none hp
        exact ⟨3, result, hresult⟩
      | some p' =>
        obtain ⟨s', hstep, hnext⟩ := h.step_some hp
        have hone : orbit (advance bytes) p 1 = some p' := hp
        rw [Nat.add_comm, orbit_add, hone] at hk
        obtain ⟨fuel, result, hloop⟩ := ih hnext hk
        refine ⟨fuel + 1, result, ?_⟩
        rw [h.loop_succ, hstep]
        exact hloop

/-- What an iteration that goes on has read, and where it goes. -/
theorem advance_cases (h : advance bytes p = some p') : p.1 + headerLength ≤ bytes.length ∧
    (p' = (p.1 + headerLength, p.2) ∨
      (substr (substr bytes p.1 headerLength) magicOffset 6).take 5 = lit "ustar" ∧
      ∃ offset < maxOffset, p' = (offset, offset) ∧ offset =
        (p.2 + (headerLength + blockCeil (headerSize (substr bytes p.1 headerLength)))) %
          sizeBound) := by
  unfold advance at h
  simp only at h
  split at h
  · cases h
  · next hwhole =>
    refine ⟨not_lt.mp hwhole, ?_⟩
    split at h
    · split at h
      · cases h
      · exact Or.inl (Option.some.inj h).symm
    · split at h
      · cases h
      · next hmagic =>
        split at h
        · next hsmall =>
          exact Or.inr ⟨not_not.mp hmagic, _, hsmall, (Option.some.inj h).symm, rfl⟩
        · cases h

/-- The loop does not get to an `offset` that is too large. -/
theorem orbit_offset_lt {k : ℕ} (h : orbit (advance bytes) (0, 0) k = some p) : p.2 < maxOffset := by
  induction k generalizing p with
  | zero =>
    obtain rfl := Option.some.inj h
    decide
  | succ k ih =>
    obtain ⟨q, hq, hstep⟩ := Option.bind_eq_some_iff.mp h
    obtain ⟨-, rfl | ⟨-, offset, hsmall, rfl, -⟩⟩ := advance_cases hstep
    · have hlt := ih hq
      exact hlt
    · exact hsmall

/-- The orbit from the start of the file ends exactly if the loop does not return to a block with the
same `offset`: there are finitely many. -/
theorem advance_ends_iff (bytes : Bytes) : (∃ k, orbit (advance bytes) (0, 0) k = none) ↔
    ¬Returns (advance bytes) (0, 0) := by
  have hfin : ({p | p.1 ≤ bytes.length ∧ p.2 < maxOffset} : Set (ℕ × ℕ)).Finite :=
    (Set.finite_Iic bytes.length).prod (Set.finite_Iio maxOffset)
  refine ends_iff_not_returns hfin fun k p hp hnext => ?_
  obtain ⟨p', hp'⟩ := Option.isSome_iff_exists.mp hnext
  have hle := (advance_cases hp').1
  exact ⟨by omega, orbit_offset_lt hp⟩

/-- Every header block of the file says a size below `2 ^ 62`. -/
def SizesBelow (bytes : Bytes) : Prop :=
  ∀ pos, (substr (substr bytes pos headerLength) magicOffset 6).take 5 = lit "ustar" →
    headerSize (substr bytes pos headerLength) < 2 ^ 62

/-- With such sizes the loop does not return: `offset` grows at headers, and between them the
position. -/
theorem not_returns_of_sizesBelow (h : SizesBelow bytes) : ¬Returns (advance bytes) (0, 0) := by
  let r : ℕ × ℕ → ℕ × ℕ → Prop := fun p q => p.2 < q.2 ∨ (p.2 = q.2 ∧ p.1 < q.1)
  have hirrefl : Std.Irrefl r := ⟨fun p hp => by simp only [r] at hp; omega⟩
  have htrans : IsTrans (ℕ × ℕ) r := ⟨fun p q t hpq hqt => by simp only [r] at hpq hqt ⊢; omega⟩
  refine not_returns_of_lt (r := r) fun k p q hp hq => ?_
  have hsmall := orbit_offset_lt hp
  obtain ⟨-, rfl | ⟨hmagic, offset, -, rfl, hoffset⟩⟩ := advance_cases hq
  · refine Or.inr ⟨rfl, ?_⟩
    simp only [headerLength]
    omega
  · have hgrows (size : ℕ) (hsize : size < 2 ^ 62) :
        p.2 < (p.2 + (headerLength + blockCeil size)) % sizeBound := by
      unfold blockCeil headerLength sizeBound
      unfold maxOffset at hsmall
      omega
    refine Or.inl ?_
    simp only [hoffset]
    exact hgrows _ (h p.1 hmagic)

/-- A file that was opened is at its start. -/
theorem openFile_ready {mode : OpenMode} {disk : Option Bytes} {file : FStream}
    (h : openFile mode disk = some file) : file.Ready ∧ file.pos = 0 := by
  unfold openFile at h
  split at h
  · obtain rfl := Option.some.inj h
    exact ⟨⟨rfl, rfl, rfl⟩, rfl⟩
  · obtain rfl := Option.some.inj h
    exact ⟨⟨rfl, rfl, rfl⟩, rfl⟩
  · obtain rfl := Option.some.inj h
    exact ⟨⟨rfl, rfl, rfl⟩, rfl⟩
  · cases h

/-- The scan of every file, in every mode, ends exactly if its loop does not return to a block with
the same `offset`; with sizes below `2 ^ 62` it does not. -/
theorem scan_ends_iff (filename : Bytes) (mode : OpenMode) (disk : Option Bytes) :
    ((∃ fuel result, ofFile fuel filename mode disk = some result) ↔
      ∀ file, openFile mode disk = some file → ¬Returns (advance file.bytes) (0, 0)) ∧
    ∀ bytes, SizesBelow bytes → ¬Returns (advance bytes) (0, 0) := by
  refine ⟨?_, fun bytes => not_returns_of_sizesBelow⟩
  unfold ofFile
  cases hopen : openFile mode disk with
  | none => simp
  | some file =>
    have hat : At file.bytes { file := file } (0, 0) := by
      obtain ⟨hready, hpos⟩ := openFile_ready hopen
      exact ⟨rfl, hready, hpos, rfl, rfl⟩
    have hiff := hat.loop_ends_iff.trans (advance_ends_iff file.bytes)
    simp only [Option.map_eq_some_iff, Option.some.injEq, forall_eq']
    rw [← hiff]
    constructor
    · rintro ⟨fuel, result, scanned, hloop, -⟩
      exact ⟨fuel, scanned, hloop⟩
    · rintro ⟨fuel, scanned, hloop⟩
      exact ⟨fuel, _, scanned, hloop, rfl⟩

/-- A header block with the size `-1000`. -/
def negativeHeader : Bytes :=
  lit "a" ++ List.replicate 123 0 ++ lit "-1000" ++ List.replicate 128 0 ++ lit "ustar" ++
    List.replicate 250 0

/-- The scan of this block does not end: it goes 512 bytes on, and 512 bytes back. -/
theorem scan_ends_counterexample :
    ¬∃ fuel result, ofFile fuel (lit "a.tar") .read (some negativeHeader) = some result := by
  have hstay : advance negativeHeader (0, 0) = some (0, 0) := by decide +kernel
  have hone : orbit (advance negativeHeader) (0, 0) 1 = some (0, 0) := by
    rw [orbit, orbit, Option.bind_some, hstay]
  have hreturns : Returns (advance negativeHeader) (0, 0) := ⟨0, 1, (0, 0), Nat.one_pos, rfl, hone⟩
  have hat : At negativeHeader { file := { bytes := negativeHeader, out := false } } (0, 0) :=
    ⟨rfl, ⟨rfl, rfl, rfl⟩, rfl, rfl, rfl⟩
  rintro ⟨fuel, result, hresult⟩
  obtain ⟨scanned, hloop, -⟩ := Option.map_eq_some_iff.mp hresult
  exact (advance_ends_iff negativeHeader).mp (hat.loop_ends_iff.mp ⟨fuel, scanned, hloop⟩) hreturns

end TarArchive

end Libgetar
