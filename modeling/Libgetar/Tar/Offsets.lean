import Libgetar.Lib.Attempt
import Libgetar.Lib.Log
import Libgetar.Tar.Walk

/-!
# Positions in the scan

The constructor's loop has two cursors, the position of the stream and the variable `offset`. At a
header both go to where the decoded size says, and the entry is recorded with `offset`. At a block
that only lacks the magic, the stream goes on and `offset` stays: from then on, what is recorded is
512 bytes in front of the data, and the next header sends the stream back.

`InStep` is what a scan should be: `offset` is the position of the stream whenever a header is read,
entries are recorded with the end of their header, and headers are decoded in file order.
`scan_in_step_iff` says for which files it is. They are described without the scan: `follow` goes
from header to header as the sizes in them say. No block that it comes to may be an unmarked one,
a header that the file ends in, or a header whose size leads, modulo `2 ^ 64`, to no position of a
stream or back to a header (`KeepsStep`).

The scan is taken apart by what the block in front of it is: an unmarked one
(`At.iterations_of_unmarked`), the last one (`At.iterations_of_not_header`), or a header
(`At.iterations_of_header`). The equivalence goes by induction along the iterations
(`At.staysInStep_iff`).
-/

namespace Libgetar

open Lib

namespace TarArchive

/-! ## What an iteration decodes -/

/-- A block that is decoded. -/
def IsHeader (block : Bytes) : Prop := (substr block magicOffset 6).take 5 = lit "ustar"

instance : DecidablePred IsHeader := fun block =>
  inferInstanceAs (Decidable ((substr block magicOffset 6).take 5 = lit "ustar"))

namespace Scan

/-- The header of an iteration: of a block that the file ends in, the rest is zero. -/
def header (s : Scan) : Bytes :=
  let got := (s.file.read headerLength).1
  got ++ List.replicate (headerLength - got.length) 0

/-- The name that an iteration records, with the position of the block that it decodes. -/
def decoded (s : Scan) : Option (Bytes × ℕ) :=
  if IsHeader s.header then some (headerName s.header, s.file.pos) else none

/-- The same name, with the offset that goes into the map. -/
def recorded (s : Scan) : Option (Bytes × ℕ) :=
  s.decoded.map fun e => (e.1, (s.offset + headerLength) % sizeBound)

/-- The variables at the start of each iteration of the loop. -/
def iterations : ℕ → Scan → List Scan
  | 0, _ => []
  | fuel + 1, s =>
    if !s.file.eof && !s.done then
      match s.step with
      | .error _ => [s]
      | .ok s' => s :: iterations fuel s'
    else []

/-- The blocks that the loop decodes, with the names in them. -/
def entries (fuel : ℕ) (s : Scan) : List (Bytes × ℕ) := (iterations fuel s).filterMap decoded

end Scan

/-- The scan has its two cursors together, from some state of its variables on. -/
structure StaysInStep (fuel : ℕ) (s : Scan) : Prop where
  /-- At the start of every iteration, `offset` is the position of the stream. -/
  offset : ∀ t ∈ Scan.iterations fuel s, t.file.tellg = some t.offset
  /-- No block is decoded twice, and the blocks are decoded in the order of the file. -/
  increasing : ((Scan.entries fuel s).map Prod.snd).Pairwise (· < ·)

/-- The scan of a file stays in step, and the archive has what it decoded. -/
structure InStep (fuel : ℕ) (file : FStream) (a : TarArchive) : Prop
    extends StaysInStep fuel { file := file } where
  /-- The entries are those that were decoded. -/
  fileNames : a.fileNames = (Scan.entries fuel { file := file }).map Prod.fst
  /-- The data of an entry are behind the last header with its name. -/
  fileOffsets : ∀ name, a.fileOffsets.find? name = lastWrite
    ((Scan.entries fuel { file := file }).map fun e => (e.1, e.2 + headerLength)) name

/-! ## The chain of the headers -/

/-- A block with a NUL where the magic should be that is not all zero. -/
def IsUnmarked (block : Bytes) : Prop :=
  (substr block magicOffset 6).head? = some 0 ∧ block.all (· == 0) = false

/-- How far it is from a header block to the next one. -/
def stride (block : Bytes) : ℕ := headerLength + blockCeil (headerSize block)

/-- The block at a position. Where the file ends in it, the rest is zero. -/
def blockAt (bytes : Bytes) (pos : ℕ) : Bytes :=
  let got := substr bytes pos headerLength
  got ++ List.replicate (headerLength - got.length) 0

/-- From a header to the next one, with the arithmetic of a `size_t`. -/
def follow (bytes : Bytes) (pos : ℕ) : Option ℕ :=
  let next := (pos + stride (blockAt bytes pos)) % sizeBound
  if pos + headerLength ≤ bytes.length ∧ IsHeader (blockAt bytes pos) ∧ next < maxOffset then
    some next
  else none

/-- The block at the position does not part the cursors. -/
structure KeepsStep (bytes : Bytes) (pos : ℕ) : Prop where
  /-- Unless the file ends in it, it is not unmarked. -/
  marked : pos + headerLength ≤ bytes.length → ¬IsUnmarked (blockAt bytes pos)
  /-- The chain goes on behind a header: the header is whole, and a stream can be sent to where its
  size leads. -/
  goesOn : IsHeader (blockAt bytes pos) → follow bytes pos ≠ none
  /-- The size in a header is not so large that it leads back to a header. -/
  ahead : IsHeader (blockAt bytes pos) → sizeBound ≤ pos + stride (blockAt bytes pos) →
    ¬IsHeader (blockAt bytes ((pos + stride (blockAt bytes pos)) % sizeBound))

/-- All the blocks that the chain of headers comes to, from a position on. -/
def ChainKeepsStep (bytes : Bytes) (pos : ℕ) : Prop :=
  ∀ k next, orbit (follow bytes) pos k = some next → KeepsStep bytes next

/-! ## Runs of the loop -/

variable {bytes name : Bytes} {s s' final : Scan} {fuel p q : ℕ}

/-- A loop that has finished was at its end, or made an iteration. -/
theorem loop_inv (h : Scan.loop fuel s = some (.ok final)) :
    ((s.file.eof = true ∨ s.done = true) ∧ final = s ∧ Scan.iterations fuel s = []) ∨
    ((s.file.eof = false ∧ s.done = false) ∧ ∃ n s', fuel = n + 1 ∧
      s.step = .ok s' ∧ Scan.loop n s' = some (.ok final) ∧
      Scan.iterations fuel s = s :: Scan.iterations n s') := by
  cases fuel with
  | zero => cases h
  | succ n =>
    rw [Scan.loop] at h
    rw [Scan.iterations]
    split at h
    · next hgo =>
      cases hstep : s.step with
      | error message =>
        rw [hstep] at h
        cases h
      | ok s' =>
        rw [hstep] at h
        refine Or.inr ⟨?_, n, s', rfl, rfl, h, if_pos hgo⟩
        rwa [Bool.and_eq_true, Bool.not_eq_true', Bool.not_eq_true'] at hgo
    · next hstop =>
      refine Or.inl ⟨?_, ?_, if_neg hstop⟩
      · rw [Bool.and_eq_true, Bool.not_eq_true', Bool.not_eq_true', not_and_or] at hstop
        simpa only [Bool.not_eq_false] using hstop
      · injection h with h
        injection h with h
        exact h.symm

/-- A loop at its end makes no iteration. -/
theorem ends_of_stop (h : Scan.loop fuel s = some (.ok final))
    (hstop : s.file.eof = true ∨ s.done = true) : final = s ∧ Scan.iterations fuel s = [] := by
  obtain ⟨-, hends⟩ | ⟨⟨heof, hdone⟩, -⟩ := loop_inv h
  · exact hends
  · rw [heof, hdone] at hstop
    rcases hstop with hstop | hstop
    · cases hstop
    · cases hstop

/-- The magic of a header does not begin with a NUL. -/
theorem IsHeader.head?_ne {block : Bytes} (h : IsHeader block) :
    (substr block magicOffset 6).head? ≠ some 0 := by
  intro hhead
  have hfirst : some (0 : UInt8) = some 117 :=
    calc some 0 = (substr block magicOffset 6).head? := hhead.symm
      _ = ((substr block magicOffset 6).take 5).head? := by
        rw [List.head?_take, if_neg (by decide)]
      _ = (lit "ustar").head? := congrArg List.head? h
      _ = some 117 := by decide
  exact absurd hfirst (by decide)

/-- What an iteration makes of its header. -/
theorem step_of_header (s : Scan) :
    (¬IsHeader s.header ∧ (substr s.header magicOffset 6).head? = some 0 ∧ s.step = .ok
      { s with
        file := (s.file.read headerLength).2
        done := s.done || s.header.all (· == 0) }) ∨
    (¬IsHeader s.header ∧ (substr s.header magicOffset 6).head? ≠ some 0 ∧
      ((∃ message, s.step = .error message) ∨
        s.step = .ok { s with file := (s.file.read headerLength).2, done := true })) ∨
    (IsHeader s.header ∧ s.step = .ok
      (s.add (s.file.read headerLength).2 (headerName s.header) (headerSize s.header))) := by
  rcases step_of_read (s := s) Prod.mk.eta.symm with ⟨hhead, hstep⟩ | ⟨hhead, hmagic, hstep⟩ | ⟨-, hmagic, hstep⟩
  · refine Or.inl ⟨?_, hhead, hstep⟩
    intro hheader
    exact hheader.head?_ne hhead
  · exact Or.inr (Or.inl ⟨hmagic, hhead, hstep⟩)
  · exact Or.inr (Or.inr ⟨hmagic, hstep⟩)

/-- What an iteration adds to the names and to the map. -/
theorem step_maps (h : s.step = .ok s') :
    (s.decoded = none ∧ s'.fileNames = s.fileNames ∧ s'.fileOffsets = s.fileOffsets) ∨
    ∃ name, s.decoded = some (name, s.file.pos) ∧ s'.fileNames = s.fileNames ++ [name] ∧
      s'.fileOffsets = s.fileOffsets.insert name ((s.offset + headerLength) % sizeBound) := by
  rcases step_of_header s with ⟨hnot, -, hstep⟩ | ⟨hnot, -, ⟨message, hstep⟩ | hstep⟩ |
    ⟨hheader, hstep⟩
  · obtain rfl := Except.ok.inj (hstep.symm.trans h)
    exact Or.inl ⟨if_neg hnot, rfl, rfl⟩
  · cases hstep.symm.trans h
  · obtain rfl := Except.ok.inj (hstep.symm.trans h)
    exact Or.inl ⟨if_neg hnot, rfl, rfl⟩
  · obtain rfl := Except.ok.inj (hstep.symm.trans h)
    exact Or.inr ⟨_, if_pos hheader, rfl, rfl⟩

/-- What a loop that has finished has recorded: every name that was decoded, with the end of its
header according to `offset`. -/
theorem maps_of_loop (h : Scan.loop fuel s = some (.ok final)) :
    final.fileNames = s.fileNames ++ (Scan.entries fuel s).map Prod.fst ∧
    final.fileOffsets =
      s.fileOffsets.insertAll ((Scan.iterations fuel s).filterMap Scan.recorded) := by
  induction fuel generalizing s with
  | zero => cases h
  | succ fuel ih =>
    unfold Scan.entries at ih ⊢
    obtain ⟨-, rfl, hnil⟩ | ⟨-, n, s', hn, hstep, hloop, hcons⟩ := loop_inv h
    · rw [hnil]
      exact ⟨(List.append_nil _).symm, rfl⟩
    · obtain rfl := Nat.succ.inj hn
      obtain ⟨hnames, hoffsets⟩ := ih hloop
      rw [hcons, hnames, hoffsets]
      rcases step_maps hstep with ⟨hnone, hnames, hoffsets⟩ | ⟨name, hsome, hnames, hoffsets⟩
      · have hrecorded : s.recorded = none := by
          rw [Scan.recorded, hnone]
          rfl
        rw [List.filterMap_cons_none hnone, List.filterMap_cons_none hrecorded, hnames, hoffsets]
        exact ⟨rfl, rfl⟩
      · have hrecorded : s.recorded = some (name, (s.offset + headerLength) % sizeBound) := by
          rw [Scan.recorded, hsome]
          rfl
        rw [List.filterMap_cons_some hsome, List.filterMap_cons_some hrecorded, hnames, hoffsets,
          List.map_cons, List.append_assoc, List.singleton_append]
        exact ⟨rfl, rfl⟩

/-! ## One iteration from a position -/

/-- The loop makes an iteration at a position. -/
theorem At.iterations_cons {pos : ℕ × ℕ} (h : At bytes s pos)
    (hloop : Scan.loop fuel s = some (.ok final)) : ∃ n s', fuel = n + 1 ∧ s.step = .ok s' ∧
      Scan.loop n s' = some (.ok final) ∧ Scan.iterations fuel s = s :: Scan.iterations n s' := by
  obtain ⟨hstop, -⟩ | ⟨-, hgo⟩ := loop_inv hloop
  · rw [h.ready.eof, h.done] at hstop
    rcases hstop with hstop | hstop
    · cases hstop
    · cases hstop
  · exact hgo

/-- The header of an iteration is the block of the file. -/
theorem At.header_eq {pos : ℕ × ℕ} (h : At bytes s pos) : s.header = blockAt bytes pos.1 := by
  simp only [Scan.header, FStream.read_fst h.ready, h.bytes, h.pos, blockAt]

/-- A whole block has no zeros added. -/
theorem blockAt_of_whole (hwhole : p + headerLength ≤ bytes.length) :
    blockAt bytes p = substr bytes p headerLength := advance_of_whole (p := (p, p)) hwhole

/-- In an iteration from a position, the stream has one. -/
theorem At.tellg_eq {pos : ℕ × ℕ} (h : At bytes s pos) : s.file.tellg = some pos.1 := by
  rw [FStream.tellg, h.ready.fail, h.pos]
  rfl

/-- At an unmarked block, the stream goes on and `offset` does not. -/
theorem At.iterations_of_unmarked (h : At bytes s (p, p))
    (hloop : Scan.loop fuel s = some (.ok final)) (hwhole : p + headerLength ≤ bytes.length)
    (hblock : IsUnmarked (blockAt bytes p)) :
    ∃ t ∈ Scan.iterations fuel s, t.file.tellg ≠ some t.offset := by
  rw [blockAt_of_whole hwhole] at hblock
  obtain ⟨hhead, hsome⟩ := hblock
  have hadvance : advance bytes (p, p) = some (p + headerLength, p) := by
    simp only [advance, if_neg (not_lt.mpr hwhole), hhead, if_true, hsome, Bool.false_eq_true,
      if_false]
  obtain ⟨n, s', -, hstep, hrest, hcons⟩ := h.iterations_cons hloop
  obtain ⟨t, ht, hat⟩ := h.step_some hadvance
  obtain rfl := Except.ok.inj (hstep.symm.trans ht)
  obtain ⟨_, _, -, -, -, hnext⟩ := hat.iterations_cons hrest
  refine ⟨s', ?_, ?_⟩
  · rw [hcons, hnext]
    exact List.mem_cons_of_mem _ List.mem_cons_self
  · rw [hat.offset, hat.tellg_eq]
    intro heq
    have hsame : p + headerLength = p := Option.some.inj heq
    unfold headerLength at hsame
    omega

/-- A block that is neither unmarked nor a header is the last one. -/
theorem At.iterations_of_not_header (h : At bytes s (p, p))
    (hloop : Scan.loop fuel s = some (.ok final)) (hnot : ¬IsHeader s.header)
    (hmarked : p + headerLength ≤ bytes.length → ¬IsUnmarked (blockAt bytes p)) :
    Scan.iterations fuel s = [s] ∧ Scan.entries fuel s = [] := by
  obtain ⟨n, s', -, hstep, hrest, hcons⟩ := h.iterations_cons hloop
  have hstop : s'.file.eof = true ∨ s'.done = true := by
    rcases step_of_header s with ⟨-, hhead, hpass⟩ | ⟨-, -, ⟨message, hpass⟩ | hpass⟩ | ⟨hheader, -⟩
    · obtain rfl := Except.ok.inj (hstep.symm.trans hpass)
      by_cases hwhole : p + headerLength ≤ bytes.length
      · -- The block is all zero.
        have hall : s.header.all (· == 0) = true := by
          rw [h.header_eq] at hhead ⊢
          by_contra hsome
          exact hmarked hwhole ⟨hhead, Bool.eq_false_iff.mpr hsome⟩
        exact Or.inr (by rw [hall, Bool.or_true])
      · -- The file ends in the block.
        obtain ⟨got, file, hread, heof, -⟩ := h.read_short (not_le.mp hwhole)
        exact Or.inl (by rw [hread]; exact heof)
    · cases hstep.symm.trans hpass
    · obtain rfl := Except.ok.inj (hstep.symm.trans hpass)
      exact Or.inr rfl
    · exact absurd hheader hnot
  have hsingle : Scan.iterations fuel s = [s] := by
    rw [hcons, (ends_of_stop hrest hstop).2]
  have hnone : s.decoded = none := if_neg hnot
  refine ⟨hsingle, ?_⟩
  rw [Scan.entries, hsingle, List.filterMap_cons_none hnone]
  rfl

/-- What is needed to follow the chain. -/
theorem follow_eq_some_iff : follow bytes p = some q ↔ p + headerLength ≤ bytes.length ∧
    IsHeader (blockAt bytes p) ∧ q < maxOffset ∧
    q = (p + stride (blockAt bytes p)) % sizeBound := by
  unfold follow
  simp only [Option.ite_none_right_eq_some, Option.some.injEq]
  constructor
  · rintro ⟨⟨hwhole, hheader, hsmall⟩, rfl⟩
    exact ⟨hwhole, hheader, hsmall, rfl⟩
  · rintro ⟨hwhole, hheader, hsmall, rfl⟩
    exact ⟨⟨hwhole, hheader, hsmall⟩, rfl⟩

/-- At a header, both cursors go to where the size says. -/
theorem advance_of_follow (hq : follow bytes p = some q) : advance bytes (p, p) = some (q, q) := by
  obtain ⟨hwhole, hheader, hsmall, rfl⟩ := follow_eq_some_iff.mp hq
  rw [blockAt_of_whole hwhole] at hheader hsmall ⊢
  unfold stride at hsmall ⊢
  unfold IsHeader at hheader
  have hne := IsHeader.head?_ne hheader
  simp only [advance, if_neg (not_lt.mpr hwhole), if_neg hne, hheader, ne_eq, not_true_eq_false,
    if_false, if_pos hsmall]

/-- A header behind which the chain does not go on makes the stream fail. -/
theorem At.fail_of_follow (h : At bytes s (p, p)) (hheader : IsHeader (blockAt bytes p))
    (hnone : follow bytes p = none) :
    (s.add (s.file.read headerLength).2 (headerName s.header) (headerSize s.header)).file.fail =
      true := by
  refine seekg_fail ?_
  by_cases hwhole : p + headerLength ≤ bytes.length
  · -- The position is too large for the stream.
    refine Or.inr (not_lt.mp fun hsmall => ?_)
    rw [h.offset, h.header_eq] at hsmall
    cases hnone.symm.trans (follow_eq_some_iff.mpr ⟨hwhole, hheader, hsmall, rfl⟩)
  · -- The file ends in the header.
    obtain ⟨got, file, hread, -, hfail⟩ := h.read_short (not_le.mp hwhole)
    exact Or.inl (by rw [hread]; exact hfail)

/-- A header is recorded, and then the loop is where the chain goes, or it makes an iteration on a
stream that has failed. -/
theorem At.iterations_of_header (h : At bytes s (p, p))
    (hloop : Scan.loop fuel s = some (.ok final)) (hheader : IsHeader s.header) :
    ∃ n s', fuel = n + 1 ∧ Scan.loop n s' = some (.ok final) ∧
      Scan.iterations fuel s = s :: Scan.iterations n s' ∧
      Scan.entries fuel s = (headerName s.header, p) :: Scan.entries n s' ∧
      ((follow bytes p = none ∧ s'.file.tellg = none ∧ s' ∈ Scan.iterations n s') ∨
        ∃ q, follow bytes p = some q ∧ At bytes s' (q, q)) := by
  obtain ⟨n, s', hn, hstep, hrest, hcons⟩ := h.iterations_cons hloop
  have hdecoded : s.decoded = some (headerName s.header, p) := by
    rw [Scan.decoded, if_pos hheader, h.pos]
  refine ⟨n, s', hn, hrest, hcons, ?_, ?_⟩
  · rw [Scan.entries, hcons, List.filterMap_cons_some hdecoded]
    rfl
  · cases hq : follow bytes p with
    | some q =>
      -- The next header is where the chain has it.
      obtain ⟨t, ht, hat⟩ := h.step_some (advance_of_follow hq)
      obtain rfl := Except.ok.inj (hstep.symm.trans ht)
      exact Or.inr ⟨q, rfl, hat⟩
    | none =>
      obtain ⟨hnot, -⟩ | ⟨hnot, -⟩ | ⟨-, hadd⟩ := step_of_header s
      · exact absurd hheader hnot
      · exact absurd hheader hnot
      · obtain rfl := Except.ok.inj (hstep.symm.trans hadd)
        have hfail := h.fail_of_follow (h.header_eq ▸ hheader) hq
        refine Or.inl ⟨rfl, by rw [FStream.tellg, hfail]; rfl, ?_⟩
        -- The seek has cleared the end of the file, so the loop goes on.
        obtain ⟨hstop, -⟩ | ⟨-, _, _, -, -, -, hagain⟩ := loop_inv hrest
        · have hdone : s.done = false := h.done
          rw [show (s.add _ _ _).file.eof = false from FStream.eof_seekg _ _,
            show (s.add _ _ _).done = s.done from rfl, hdone] at hstop
          rcases hstop with hstop | hstop <;> cases hstop
        · rw [hagain]
          exact List.mem_cons_self

/-! ## The chain -/

/-- It is farther to the next header than one block. -/
theorem stride_pos (block : Bytes) : 0 < stride block := by
  unfold stride headerLength
  omega

/-- A size for which the sum passes `2 ^ 64` leads back, if it leads anywhere. -/
theorem add_stride_le (block : Bytes) (hp : p < maxOffset) (hback : sizeBound ≤ p + stride block) :
    (p + stride block) % sizeBound ≤ p := by
  have hstride : stride block ≤ sizeBound := by
    unfold stride blockCeil headerLength sizeBound
    omega
  unfold maxOffset at hp
  unfold sizeBound at hback hstride ⊢
  omega

/-- Other sizes lead on. -/
theorem lt_add_stride (block : Bytes) (hon : p + stride block < sizeBound) :
    p < (p + stride block) % sizeBound := by
  have hpos := stride_pos block
  rw [Nat.mod_eq_of_lt hon]
  omega

/-- The chain goes on from the next header. -/
theorem chainKeepsStep_iff : ChainKeepsStep bytes p ↔
    KeepsStep bytes p ∧ ∀ q, follow bytes p = some q → ChainKeepsStep bytes q := by
  have hone (k : ℕ) : orbit (follow bytes) p (1 + k) =
      (follow bytes p).bind fun q => orbit (follow bytes) q k := orbit_add _ _ 1 k
  constructor
  · intro h
    refine ⟨h 0 p rfl, fun q hq k next hnext => h (1 + k) next ?_⟩
    rw [hone, hq]
    exact hnext
  · rintro ⟨hfirst, hrest⟩ k next hnext
    cases k with
    | zero =>
      obtain rfl := Option.some.inj hnext
      exact hfirst
    | succ k =>
      rw [Nat.add_comm, hone] at hnext
      obtain ⟨q, hq, hnext⟩ := Option.bind_eq_some_iff.mp hnext
      exact hrest q hq k next hnext

/-- A header is not unmarked. -/
theorem IsHeader.not_isUnmarked {block : Bytes} (h : IsHeader block) : ¬IsUnmarked block :=
  fun hblock => h.head?_ne hblock.1

/-! ## All the iterations -/

/-- An iteration that decodes a header leaves the scan in step exactly if the rest of the scan stays
so, behind this header. -/
theorem At.staysInStep_cons {n : ℕ} (h : At bytes s (p, p))
    (hcons : Scan.iterations fuel s = s :: Scan.iterations n s')
    (hentries : Scan.entries fuel s = (name, p) :: Scan.entries n s') :
    StaysInStep fuel s ↔ StaysInStep n s' ∧ ∀ e ∈ Scan.entries n s', p < e.2 := by
  have hhere : s.file.tellg = some s.offset := by rw [h.tellg_eq, h.offset]
  constructor
  · rintro ⟨hoffset, hincreasing⟩
    rw [hcons] at hoffset
    rw [hentries, List.map_cons, List.pairwise_cons] at hincreasing
    refine ⟨⟨fun t ht => hoffset t (List.mem_cons_of_mem _ ht), hincreasing.2⟩, fun e he => ?_⟩
    exact hincreasing.1 e.2 (List.mem_map_of_mem he)
  · rintro ⟨⟨hoffset, hincreasing⟩, hbehind⟩
    constructor
    · rw [hcons]
      intro t ht
      rcases List.mem_cons.mp ht with rfl | ht
      · exact hhere
      · exact hoffset t ht
    · rw [hentries, List.map_cons, List.pairwise_cons]
      refine ⟨fun pos hpos => ?_, hincreasing⟩
      obtain ⟨e, he, rfl⟩ := List.mem_map.mp hpos
      exact hbehind e he

/-- Where a header leads to, the scan decodes nothing in front of it, exactly if the header keeps
the scan in step. -/
theorem behind_iff {n : ℕ} (hat : At bytes s' (q, q))
    (hloop : Scan.loop n s' = some (.ok final)) (hp : p < maxOffset)
    (hq : follow bytes p = some q) (hkeeps : KeepsStep bytes q) (hstays : StaysInStep n s') :
    (∀ e ∈ Scan.entries n s', p < e.2) ↔ KeepsStep bytes p := by
  obtain ⟨-, hheader, -, hnext⟩ := follow_eq_some_iff.mp hq
  have hgoesOn : follow bytes p ≠ none := fun hnone => by cases hnone.symm.trans hq
  have hback : sizeBound ≤ p + stride (blockAt bytes p) → q ≤ p := fun hwrap =>
    hnext ▸ add_stride_le (blockAt bytes p) hp hwrap
  by_cases hdecodes : IsHeader s'.header
  · -- The next entry is recorded with `q`, and all later ones are behind it.
    obtain ⟨m, t, -, -, -, hentries, -⟩ := hat.iterations_of_header hloop hdecodes
    constructor
    · intro hbehind
      refine ⟨fun _ => hheader.not_isUnmarked, fun _ => hgoesOn, fun _ hwrap => ?_⟩
      have hlt : p < q := hbehind (headerName s'.header, q) (by
        rw [hentries]
        exact List.mem_cons_self)
      exact absurd (hback hwrap) (not_le.mpr hlt)
    · intro hfirst e he
      have hlt : p < q := by
        by_contra hle
        have hwrap : sizeBound ≤ p + stride (blockAt bytes p) := by
          by_contra hon
          have hlt := lt_add_stride _ (not_le.mp hon)
          exact hle (hnext ▸ hlt)
        have hnot := hfirst.ahead hheader hwrap
        rw [← hnext, ← hat.header_eq] at hnot
        exact hnot hdecodes
      have hincreasing := hstays.increasing
      rw [hentries, List.map_cons, List.pairwise_cons] at hincreasing
      rw [hentries] at he
      rcases List.mem_cons.mp he with rfl | he
      · exact hlt
      · exact hlt.trans (hincreasing.1 e.2 (List.mem_map_of_mem he))
  · -- There is no later entry, and what the size leads to is no header.
    obtain ⟨-, hnil⟩ := hat.iterations_of_not_header hloop hdecodes hkeeps.marked
    constructor
    · intro _
      refine ⟨fun _ => hheader.not_isUnmarked, fun _ => hgoesOn, fun _ _ => ?_⟩
      rw [← hnext, ← hat.header_eq]
      exact hdecodes
    · intro _ e he
      rw [hnil] at he
      cases he

/-- The chain ends at a marked block that is no header. -/
theorem chain_of_end (hnot : ¬IsHeader (blockAt bytes p))
    (hmarked : p + headerLength ≤ bytes.length → ¬IsUnmarked (blockAt bytes p)) :
    KeepsStep bytes p ∧ ∀ q, follow bytes p = some q → ChainKeepsStep bytes q :=
  ⟨⟨hmarked, fun h => absurd h hnot, fun h => absurd h hnot⟩,
    fun _ hq => absurd (follow_eq_some_iff.mp hq).2.1 hnot⟩

/-- The scan from a position stays in step exactly if the chain from there does. -/
theorem At.staysInStep_iff (h : At bytes s (p, p)) (hp : p < maxOffset)
    (hloop : Scan.loop fuel s = some (.ok final)) :
    StaysInStep fuel s ↔ ChainKeepsStep bytes p := by
  induction fuel generalizing s p with
  | zero => cases hloop
  | succ fuel ih =>
    rw [chainKeepsStep_iff]
    by_cases hunmarked : p + headerLength ≤ bytes.length ∧ IsUnmarked (blockAt bytes p)
    · -- Neither is the case.
      obtain ⟨t, ht, hne⟩ := h.iterations_of_unmarked hloop hunmarked.1 hunmarked.2
      constructor
      · intro hstays
        exact absurd (hstays.offset t ht) hne
      · rintro ⟨hfirst, -⟩
        exact absurd hunmarked.2 (hfirst.marked hunmarked.1)
    · have hmarked : p + headerLength ≤ bytes.length → ¬IsUnmarked (blockAt bytes p) :=
        fun hwhole hblock => hunmarked ⟨hwhole, hblock⟩
      by_cases hheader : IsHeader s.header
      · obtain ⟨n, s', hn, hrest, hcons, hentries, hnext⟩ := h.iterations_of_header hloop hheader
        obtain rfl := Nat.succ.inj hn
        rw [h.staysInStep_cons hcons hentries]
        obtain ⟨hnone, hfail, hmem⟩ | ⟨q, hq, hat⟩ := hnext
        · -- The stream has failed behind the header, so neither is the case.
          constructor
          · rintro ⟨hstays, -⟩
            cases hfail.symm.trans (hstays.offset s' hmem)
          · rintro ⟨hfirst, -⟩
            exact absurd hnone (hfirst.goesOn (h.header_eq ▸ hheader))
        · -- The loop follows the chain.
          have hrec := ih hat (follow_eq_some_iff.mp hq).2.2.1 hrest
          constructor
          · rintro ⟨hstays, hbehind⟩
            have hchain := hrec.mp hstays
            refine ⟨(behind_iff hat hrest hp hq (hchain 0 q rfl) hstays).mp hbehind, ?_⟩
            intro q' hq'
            obtain rfl := Option.some.inj (hq.symm.trans hq')
            exact hchain
          · rintro ⟨hfirst, hchains⟩
            have hchain := hchains q hq
            have hstays := hrec.mpr hchain
            exact ⟨hstays, (behind_iff hat hrest hp hq (hchain 0 q rfl) hstays).mpr hfirst⟩
      · -- Both are the case.
        obtain ⟨hsingle, hnil⟩ := h.iterations_of_not_header hloop hheader hmarked
        refine iff_of_true ⟨?_, ?_⟩ (chain_of_end (h.header_eq ▸ hheader) hmarked)
        · rw [hsingle]
          intro t ht
          rw [List.mem_singleton.mp ht, h.tellg_eq, h.offset]
        · rw [hnil]
          exact List.Pairwise.nil

/-! ## The whole scan -/

/-- As long as the stream has not failed, `offset` is a position that it can have. -/
theorem step_offset_lt (hsmall : s.file.fail = true ∨ s.offset < maxOffset)
    (hstep : s.step = .ok s') : s'.file.fail = true ∨ s'.offset < maxOffset := by
  have hread (hfail : s.file.fail = true) : (s.file.read headerLength).2.fail = true := by
    rw [FStream.read_of_fail hfail]
    exact hfail
  rcases step_of_header s with ⟨-, -, hpass⟩ | ⟨-, -, ⟨message, hpass⟩ | hpass⟩ | ⟨-, hadd⟩
  · obtain rfl := Except.ok.inj (hstep.symm.trans hpass)
    exact hsmall.imp_left hread
  · cases hstep.symm.trans hpass
  · obtain rfl := Except.ok.inj (hstep.symm.trans hpass)
    exact hsmall.imp_left hread
  · obtain rfl := Except.ok.inj (hstep.symm.trans hadd)
    -- Where the stream is sent to a larger one, it fails.
    exact (Nat.lt_or_ge _ maxOffset).symm.imp_left fun hlarge => seekg_fail (Or.inr hlarge)

/-- So it is in every iteration. -/
theorem iterations_offset_lt (hsmall : s.file.fail = true ∨ s.offset < maxOffset)
    (hloop : Scan.loop fuel s = some (.ok final)) :
    ∀ t ∈ Scan.iterations fuel s, t.file.fail = true ∨ t.offset < maxOffset := by
  induction fuel generalizing s with
  | zero => cases hloop
  | succ fuel ih =>
    obtain ⟨-, -, hnil⟩ | ⟨-, n, s', hn, hstep, hrest, hcons⟩ := loop_inv hloop
    · rw [hnil]
      intro t ht
      cases ht
    · obtain rfl := Nat.succ.inj hn
      rw [hcons]
      intro t ht
      rcases List.mem_cons.mp ht with rfl | ht
      · exact hsmall
      · exact ih (step_offset_lt hsmall hstep) hrest t ht

/-- In step, an entry is recorded with the end of its header. -/
theorem StaysInStep.recorded_eq (h : StaysInStep fuel s)
    (hsmall : s.file.fail = true ∨ s.offset < maxOffset)
    (hloop : Scan.loop fuel s = some (.ok final)) : (Scan.iterations fuel s).filterMap Scan.recorded =
      (Scan.entries fuel s).map fun e => (e.1, e.2 + headerLength) := by
  rw [Scan.entries, List.map_filterMap]
  refine List.filterMap_congr fun t ht => ?_
  by_cases hheader : IsHeader t.header
  · obtain ⟨hgood, hpos⟩ := FStream.tellg_eq_some_iff.mp (h.offset t ht)
    have hlt : t.offset < maxOffset := by
      rcases iterations_offset_lt hsmall hloop t ht with hfail | hlt
      · cases hgood.symm.trans hfail
      · exact hlt
    have hmod : (t.offset + headerLength) % sizeBound = t.file.pos + headerLength := by
      rw [hpos]
      unfold maxOffset at hlt
      unfold headerLength sizeBound
      omega
    rw [Scan.recorded, hmod, Scan.decoded, if_pos hheader, Option.map_some, Option.map_some]
  · rw [Scan.recorded, Scan.decoded, if_neg hheader, Option.map_none, Option.map_none]

/-- The scan of a file that does not throw stays in step exactly if the chain of the headers does:
it comes to no block that is unmarked, to no header behind which it does not go on, and to none
whose size leads back to a header. -/
theorem scan_in_step_iff {filename : Bytes} {mode : OpenMode} {disk : Option Bytes} {file : FStream}
    {a : TarArchive} (hopen : openFile mode disk = some file)
    (hscan : ofFile fuel filename mode disk = some (.ok a)) :
    InStep fuel file a ↔ ChainKeepsStep file.bytes 0 := by
  rw [ofFile, hopen] at hscan
  obtain ⟨result, hloop, hresult⟩ := Option.map_eq_some_iff.mp hscan
  obtain ⟨final, rfl, rfl⟩ := map_eq_ok_iff.mp hresult
  have hat : At file.bytes { file := file } (0, 0) := by
    obtain ⟨hready, hpos⟩ := openFile_ready hopen
    exact ⟨rfl, hready, hpos, rfl, rfl⟩
  have hzero : 0 < maxOffset := by decide
  rw [← hat.staysInStep_iff hzero hloop]
  constructor
  · intro h
    exact h.toStaysInStep
  · intro h
    obtain ⟨hnames, hoffsets⟩ := maps_of_loop hloop
    refine ⟨h, hnames, fun name => ?_⟩
    calc (ofScan mode final).fileOffsets.find? name = final.fileOffsets.find? name := rfl
      _ = lastWrite ((Scan.iterations fuel { file := file }).filterMap Scan.recorded) name := by
        rw [hoffsets]
        exact StdMap.find?_insertAll _ name
      _ = lastWrite ((Scan.entries fuel { file := file }).map fun e =>
            (e.1, e.2 + headerLength)) name := by
        rw [h.recorded_eq (Or.inr hzero) hloop]

/-- A scan that is evaluated: it has made an archive that passes a test. -/
theorem exists_archive {test : TarArchive → Bool} {scanned : Option (Except Bytes TarArchive)}
    (h : (scanned.any fun result => result.toOption.any test) = true) :
    ∃ a, scanned = some (.ok a) ∧ test a = true := by
  cases scanned with
  | none => cases h
  | some result =>
    cases result with
    | error message => cases h
    | ok a => exact ⟨a, rfl, h⟩

/-- A file of one entry with three bytes of data. -/
def oneEntry : Bytes :=
  lit "b" ++ List.replicate 123 0 ++ lit "3" ++ List.replicate 132 0 ++ lit "ustar" ++
    List.replicate 250 0 ++ lit "xyz" ++ List.replicate 509 0

/-- Its chain ends behind the entry. -/
theorem scan_in_step_oneEntry : ∃ a, ofFile 3 (lit "a.tar") .read (some oneEntry) = some (.ok a) ∧
    InStep 3 { bytes := oneEntry, out := false } a := by
  have hscan : ∃ a, ofFile 3 (lit "a.tar") .read (some oneEntry) = some (.ok a) ∧ true = true := by
    apply exists_archive
    decide +kernel
  obtain ⟨a, ha, -⟩ := hscan
  refine ⟨a, ha, (scan_in_step_iff rfl ha).mpr ?_⟩
  have hfirst : follow oneEntry 0 = some 1024 := by decide +kernel
  have hheader : IsHeader (blockAt oneEntry 0) := by decide +kernel
  have hon : ¬sizeBound ≤ 0 + stride (blockAt oneEntry 0) := by decide +kernel
  have hnot : ¬IsHeader (blockAt oneEntry 1024) := by decide +kernel
  have hend : ¬1024 + headerLength ≤ oneEntry.length := by decide +kernel
  rw [chainKeepsStep_iff]
  refine ⟨⟨fun _ => hheader.not_isUnmarked, fun _ hnone => ?_, fun _ hwrap => absurd hwrap hon⟩,
    fun q hq => ?_⟩
  · cases hfirst.symm.trans hnone
  · obtain rfl := Option.some.inj (hfirst.symm.trans hq)
    rw [chainKeepsStep_iff]
    exact chain_of_end hnot fun hwhole => absurd hwhole hend

/-- The same file behind a header that is older than the ustar format. -/
def behindOld : Bytes := lit "a" ++ List.replicate 511 0 ++ oneEntry

/-- The block of the entry is decoded at 512, and its data are looked for there: what is read is the
front of the header. -/
theorem scan_in_step_counterexample :
    ∃ a, ofFile 6 (lit "a.tar") .read (some behindOld) = some (.ok a) ∧
      ¬InStep 6 { bytes := behindOld, out := false } a ∧
      a.fileOffsets.find? (lit "b") = some 512 ∧
      (Scan.entries 6 { file := { bytes := behindOld, out := false } }) = [(lit "b", 512)] ∧
      (a.read (lit "b") { now := 0 }).2 = some (lit "b" ++ [0, 0]) := by
  have hscan : ∃ a, ofFile 6 (lit "a.tar") .read (some behindOld) = some (.ok a) ∧
      decide (a.fileOffsets.find? (lit "b") = some 512 ∧
        (a.read (lit "b") { now := 0 }).2 = some (lit "b" ++ [0, 0])) = true := by
    apply exists_archive
    decide +kernel
  obtain ⟨a, ha, htest⟩ := hscan
  obtain ⟨hfind, hread⟩ := of_decide_eq_true htest
  have hentries : Scan.entries 6 { file := { bytes := behindOld, out := false } } =
      [(lit "b", 512)] := by decide +kernel
  refine ⟨a, ha, fun hstep => ?_, hfind, hentries, hread⟩
  have hend := hstep.fileOffsets (lit "b")
  rw [hfind, hentries] at hend
  exact absurd hend (by decide)

end TarArchive

end Libgetar
