import Libgetar.Tar.Names

/-!
# The scan of a tar file that was cut off

What the constructor makes of the front part of a file of records. The records whose headers are whole
are listed, and so is one whose header is cut behind the magic: name and size are decoded from what
is there, and the prefix is empty (`Entry.Plain`). A header that is cut inside its magic ends the
scan, or makes the constructor throw if it is the first one. A header cut in front of the magic is a
block that is not empty, and the end of the file ends the scan.

`prefix_image_cases` says where the cut can be, `AtEntry.loop_cut` what the loop does there, and
`ofFile_prefix` puts this behind the records in front of the cut.
-/

namespace Libgetar

open Lib

namespace TarArchive

/-! ## Where the cut is -/

/-- The cut is behind the entries, or it is in one of them. -/
theorem prefix_image_cases {es : List Entry} {tail F : Bytes} (h : F <+: image es ++ tail) :
    (∃ z, z <+: tail ∧ F = image es ++ z) ∨
      ∃ front e back cut, es = front ++ e :: back ∧ F = image front ++ cut ∧ cut <+: e.bytes ∧
        cut.length < e.length := by
  induction es generalizing F with
  | nil => exact Or.inl ⟨F, h, rfl⟩
  | cons e es ih =>
    rw [image_cons, List.append_assoc] at h
    by_cases hlt : F.length < e.length
    · -- The cut is in the first entry.
      have hcut : F <+: e.bytes :=
        List.prefix_of_prefix_length_le h (List.prefix_append _ _) (by rw [e.length_bytes]; omega)
      exact Or.inr ⟨[], e, es, F, rfl, rfl, hcut, hlt⟩
    · have hwhole : e.bytes <+: F :=
        List.prefix_of_prefix_length_le (List.prefix_append _ _) h (by rw [e.length_bytes]; omega)
      obtain ⟨F', rfl⟩ := hwhole
      rw [List.prefix_append_right_inj] at h
      rcases ih h with ⟨z, hz, rfl⟩ | ⟨front, e', back, cut, rfl, rfl, hcut, hlt⟩
      · exact Or.inl ⟨z, hz, by rw [image_cons, List.append_assoc]⟩
      · exact Or.inr ⟨e :: front, e', back, cut, rfl, by rw [image_cons, List.append_assoc], hcut,
          hlt⟩

/-! ## Headers that are cut -/

/-- A well-formed entry with nothing from the prefix on. -/
structure Entry.Plain (e : Entry) : Prop extends e.WellFormed where
  zero_behind : ∀ c ∈ e.header.drop prefixOffset, c = 0

/-- The entry with what is read of its header when the file ends `c` bytes behind its beginning. -/
def Entry.cutHeader (e : Entry) (c : ℕ) : Entry where
  name := e.name
  header := e.header.take c ++ List.replicate (headerLength - c) 0
  data := e.data
  padding := e.padding
  length_header := by
    rw [List.length_append, List.length_take, List.length_replicate, e.length_header]
    omega
  length_padding := e.length_padding

/-- A field in front of the cut is whole. -/
theorem Entry.substr_cutHeader (e : Entry) {c off n : ℕ} (h : off + n ≤ c)
    (hin : off + n ≤ headerLength) :
    substr (e.cutHeader c).header off n = substr e.header off n := by
  have hlen : off + n ≤ (e.header.take c).length := by
    rw [List.length_take, e.length_header]
    omega
  unfold substr Entry.cutHeader
  simp only
  rw [List.drop_append_of_le_length (by omega), List.take_append_of_le_length, List.drop_take,
    List.take_take, Nat.min_eq_left (by omega)]
  rw [List.length_drop]
  omega

/-- A text of zeros is empty. -/
theorem cStr_eq_nil {s : Bytes} (h : ∀ c ∈ s, c = 0) : cStr s = [] := by
  rw [List.eq_replicate_of_mem h]
  exact cStr_append_replicate [] s.length

/-- A plain header that is cut behind its magic is well-formed. -/
theorem Entry.Plain.cutHeader {e : Entry} (h : e.Plain) {c : ℕ} (hc : magicOffset + 5 ≤ c) :
    (e.cutHeader c).WellFormed := by
  have hbehind : ∀ x ∈ (e.cutHeader c).header.drop prefixOffset, x = 0 := by
    intro x hx
    unfold Entry.cutHeader at hx
    rw [List.drop_append, List.mem_append] at hx
    rcases hx with hx | hx
    · rw [List.drop_take] at hx
      exact h.zero_behind x (List.mem_of_mem_take hx)
    · exact List.eq_of_mem_replicate (List.mem_of_mem_drop hx)
  have hzero : ∀ x ∈ substr (e.cutHeader c).header prefixOffset 155, x = 0 := fun x hx =>
    hbehind x (List.mem_of_mem_take hx)
  have hzero' : ∀ x ∈ substr e.header prefixOffset 155, x = 0 := fun x hx =>
    h.zero_behind x (List.mem_of_mem_take hx)
  have hlen : (substr (e.cutHeader c).header prefixOffset 155).length = 155 := by
    rw [substr, List.length_take, List.length_drop, (e.cutHeader c).length_header]
    decide
  unfold magicOffset at hc
  have hname := e.substr_cutHeader (show nameOffset + 100 ≤ c by unfold nameOffset; omega) (by decide)
  have hsize := e.substr_cutHeader (show sizeOffset + 12 ≤ c by unfold sizeOffset; omega) (by decide)
  have hmagic := e.substr_cutHeader (show magicOffset + 5 ≤ c from hc) (by decide)
  refine ⟨hmagic.trans h.magic, ?_, ?_, ?_, ?_, ?_⟩
  · rw [hname]
    exact h.nul_name
  · obtain ⟨x, hx⟩ := List.exists_mem_of_ne_nil _
      (List.length_pos_iff.mp (show 0 < (substr (e.cutHeader c).header prefixOffset 155).length by
        rw [hlen]; decide))
    rwa [← hzero x hx]
  · rw [hsize]
    exact h.nul_size
  · rw [hsize]
    exact h.size
  · have hwhole := h.name
    rw [cStr_eq_nil hzero'] at hwhole
    rw [cStr_eq_nil hzero, hname]
    exact hwhole

/-- A block that is cut in its magic has no ustar magic. -/
theorem magic_of_short {got : Bytes} (h : got.length ≤ magicOffset + 4) :
    (substr (got ++ List.replicate (headerLength - got.length) 0) magicOffset 6).take 5 ≠
      lit "ustar" := by
  intro heq
  have hlast := congrArg (fun s => s[4]?) heq
  have hzero : (got ++ List.replicate (headerLength - got.length) (0 : UInt8))[magicOffset + 4]? =
      some 0 := by
    rw [List.getElem?_append_right h, List.getElem?_replicate, if_pos]
    unfold magicOffset at h ⊢
    unfold headerLength
    omega
  simp only [substr, List.take_take, List.getElem?_take, List.getElem?_drop, hzero] at hlast
  exact absurd hlast (by decide)

/-! ## An iteration at the cut -/

/-- A block in which only zeros were read ends the loop. -/
theorem step_zeros {s : Scan} {k : ℕ} (hgot : (s.file.read headerLength).1 = List.replicate k 0)
    (hk : k ≤ headerLength) :
    s.step = .ok { s with file := (s.file.read headerLength).2, done := true } := by
  have hread : s.file.read headerLength = (List.replicate k 0, (s.file.read headerLength).2) :=
    Prod.ext hgot rfl
  have hblock : List.replicate k (0 : UInt8) ++
      List.replicate (headerLength - (List.replicate k (0 : UInt8)).length) 0 =
        List.replicate headerLength 0 := by
    rw [List.length_replicate, ← List.replicate_add, Nat.add_sub_cancel' hk]
  have hmagic : (substr (List.replicate headerLength (0 : UInt8)) magicOffset 6).head? = some 0 := by
    decide
  rw [Scan.step, hread]
  simp only [hblock, hmagic, if_true, all_replicate_zero, Bool.or_true]

/-- A block that is cut in its magic ends the loop, or makes it throw if it is the first one. -/
theorem step_short {s : Scan} {got : Bytes} {stream : FStream}
    (hread : s.file.read headerLength = (got, stream)) (hshort : got.length ≤ magicOffset + 4) :
    (s.offset = 0 ∧ ∃ message, s.step = .error message) ∨
      ∃ done, s.step = .ok { s with file := stream, done := done } := by
  have hmagic := magic_of_short hshort
  simp only [Scan.step, hread]
  split
  · exact Or.inr ⟨_, rfl⟩
  · split
    · next hfirst => exact Or.inl ⟨hfirst, _, rfl⟩
    · exact Or.inr ⟨true, rfl⟩

/-- A block that decodes is recorded. -/
theorem step_header {s : Scan} {got : Bytes} {stream : FStream} {e : Entry} (he : e.Decodes)
    (hread : s.file.read headerLength = (got, stream))
    (hheader : got ++ List.replicate (headerLength - got.length) 0 = e.header) :
    s.step = .ok (s.add stream e.name e.data.length) := by
  obtain ⟨hhead, htake⟩ := he.magic_field
  simp only [Scan.step, hread, hheader, hhead, htake, ne_eq, not_true_eq_false, if_false, he.name,
    he.size]

/-- When nothing can be read any more, the loop ends, and the maps stay. -/
theorem Indexed.loop_blank {file : FStream} {s : Scan} {es : List Entry} (h : Indexed file s es)
    (hgot : (s.file.read headerLength).1 = []) :
    ∃ s', (∀ fuel, Scan.loop (fuel + 2) s = some (.ok s')) ∧ Indexed file s' es := by
  by_cases hgo : (!s.file.eof && !s.done) = true
  · refine ⟨{ s with file := (s.file.read headerLength).2, done := true }, fun fuel => ?_, ?_⟩
    · rw [Scan.loop, if_pos hgo, step_zeros (k := 0) hgot (Nat.zero_le _)]
      exact loop_of_stop (Or.inr rfl) fuel
    · obtain ⟨hbytes, hopen, hout⟩ := s.file.frame_read headerLength
      exact ⟨hbytes.trans h.bytes, hout.trans h.out, hopen.trans h.isOpen, h.names, h.offsets,
        h.sizes⟩
  · refine ⟨s, fun fuel => ?_, h⟩
    rw [Scan.loop, if_neg hgo]

/-- What the loop reads in front of a cut. -/
theorem AtEntry.read_cut {file : FStream} {s : Scan} {es : List Entry} {cut : Bytes}
    (h : AtEntry file s es) (hbytes : file.bytes = image es ++ cut) :
    (s.file.read headerLength).1 = cut.take headerLength ∧
      (s.file.read headerLength).2.eof = decide (cut.length < headerLength) ∧
      (s.file.read headerLength).2.fail = decide (cut.length < headerLength) := by
  have hgot : substr s.file.bytes s.file.pos headerLength = cut.take headerLength := by
    rw [h.bytes, hbytes, h.pos, substr, List.drop_left]
  have hlen : (cut.take headerLength).length < headerLength ↔ cut.length < headerLength := by
    rw [List.length_take]
    omega
  obtain ⟨heof, hfail⟩ := FStream.flags_read h.ready headerLength
  rw [hgot] at heof hfail
  exact ⟨(FStream.read_fst h.ready _).trans hgot, heof.trans (decide_eq_decide.mpr hlen),
    hfail.trans (decide_eq_decide.mpr hlen)⟩

/-- At an entry in which the file ends, the loop lists the entry or it does not, and ends. If the
header is whole it does. It throws only if the first header is cut. -/
theorem AtEntry.loop_cut {file : FStream} {s : Scan} {front : List Entry} {e : Entry} {cut : Bytes}
    (h : AtEntry file s front) (he : e.Plain) (hbytes : file.bytes = image front ++ cut)
    (hcut : cut <+: e.bytes) (hlt : cut.length < e.length)
    (hfit : (image front).length + e.length < maxOffset) :
    (cut.length < headerLength ∧ (image front).length = 0 ∧
        ∃ message, ∀ fuel, Scan.loop (fuel + 3) s = some (.error message)) ∨
      ∃ s' listed, (∀ fuel, Scan.loop (fuel + 3) s = some (.ok s')) ∧
        Indexed file s' (front ++ listed) ∧ listed <+: [e] ∧
        (headerLength ≤ cut.length → listed = [e]) := by
  obtain ⟨hgot, heof, hfail⟩ := h.read_cut hbytes
  obtain ⟨hsame, hsameOpen, hsameOut⟩ := s.file.frame_read headerLength
  have hread : s.file.read headerLength = (cut.take headerLength, (s.file.read headerLength).2) :=
    Prod.ext hgot rfl
  generalize (s.file.read headerLength).2 = stream at heof hfail hsame hsameOpen hsameOut hread
  have hlen : (cut.take headerLength).length = min headerLength cut.length := List.length_take
  by_cases hshort : cut.length ≤ magicOffset + 4
  · -- The file ends in front of the magic or in it.
    have hheader : cut.length < headerLength := lt_of_le_of_lt hshort (by decide)
    rcases step_short hread (by rw [hlen]; omega) with ⟨hfirst, message, hstep⟩ | ⟨done, hstep⟩
    · refine Or.inl ⟨hheader, h.offset.symm.trans hfirst, message, fun fuel => ?_⟩
      rw [h.loop_succ, hstep]
    · refine Or.inr ⟨{ s with file := stream, done := done }, [], fun fuel => ?_, ?_,
        List.nil_prefix, fun hwhole => absurd hheader (not_lt.mpr hwhole)⟩
      · rw [h.loop_succ, hstep]
        exact loop_of_stop (Or.inl (heof.trans (decide_eq_true hheader))) _
      · rw [List.append_nil]
        exact ⟨hsame.trans h.bytes, hsameOut.trans h.out, hsameOpen.trans h.isOpen, h.names,
          h.offsets, h.sizes⟩
  · -- The magic is whole, so the entry is listed.
    have hheader : cut.take headerLength ++
        List.replicate (headerLength - (cut.take headerLength).length) 0 =
          (e.cutHeader cut.length).header := by
      have htake : cut.take headerLength = e.header.take cut.length := by
        obtain ⟨rest, hrest⟩ := hcut
        have hfront : e.bytes.take headerLength = e.header := by
          rw [Entry.bytes, List.append_assoc, List.take_left' e.length_header]
        rw [← hfront, ← hrest, List.take_take, Nat.min_comm, ← List.take_take, List.take_left]
      rw [hlen, htake, Entry.cutHeader]
      congr 2
      omega
    have hdata : e.data.length < sizeBound := by
      apply lt_sizeBound
      unfold Entry.length at hfit
      omega
    have hstep := step_header ((he.cutHeader (by omega)).decodes hdata) hread hheader
    obtain ⟨hindexed, hfile, -⟩ := h.toIndexed.add h.offset e hfit stream
      (hsame.trans h.bytes) (hsameOut.trans h.out) (hsameOpen.trans h.isOpen)
    have hblank : ((s.add stream e.name e.data.length).file.read headerLength).1 = [] := by
      rw [hfile]
      by_cases hwhole : cut.length < headerLength
      · -- The stream has failed.
        have hfailed : stream.fail = true := hfail.trans (decide_eq_true hwhole)
        rw [FStream.seekg_of_fail hfailed, FStream.read_of_fail]
        exact hfailed
      · -- The stream is behind the end of the file.
        have hready : stream.Ready :=
          ⟨heof.trans (decide_eq_false hwhole), hfail.trans (decide_eq_false hwhole),
            hsameOpen.trans h.isOpen⟩
        have hmoved : ({ stream with pos := (image front).length + e.length } : FStream).Ready :=
          ⟨hready.eof, hready.fail, hready.isOpen⟩
        rw [FStream.seekg_of_lt hready hfit, FStream.read_fst hmoved, substr,
          List.drop_eq_nil_of_le, List.take_nil]
        simp only [hsame, h.bytes, hbytes, List.length_append]
        omega
    obtain ⟨s', hloop, hindexed'⟩ := hindexed.loop_blank hblank
    refine Or.inr ⟨s', [e], fun fuel => ?_, hindexed', List.prefix_refl _, fun _ => rfl⟩
    rw [h.loop_succ, hstep]
    exact hloop fuel

/-- Behind all entries there are zeros, as many as the cut leaves, and the loop ends. -/
theorem AtEntry.loop_zeros {file : FStream} {s : Scan} {es : List Entry} {k : ℕ}
    (h : AtEntry file s es) (hbytes : file.bytes = image es ++ List.replicate k 0) :
    ∃ s', (∀ fuel, Scan.loop (fuel + 3) s = some (.ok s')) ∧ Indexed file s' es := by
  obtain ⟨hgot, -, -⟩ := h.read_cut hbytes
  rw [List.take_replicate] at hgot
  obtain ⟨hsame, hsameOpen, hsameOut⟩ := s.file.frame_read headerLength
  refine ⟨{ s with file := (s.file.read headerLength).2, done := true }, fun fuel => ?_, ?_⟩
  · rw [h.loop_succ, step_zeros hgot (Nat.min_le_left _ _)]
    exact loop_of_stop (Or.inr rfl) _
  · exact ⟨hsame.trans h.bytes, hsameOut.trans h.out, hsameOpen.trans h.isOpen, h.names, h.offsets,
      h.sizes⟩

/-! ## The constructor -/

/-- The constructor, on a part of a file of plain entries from its beginning. Either the first header
is cut, and it throws, or it lists entries from the first one on: those whose headers are whole, and
perhaps one more. -/
theorem ofFile_prefix (filename : Bytes) {es : List Entry} (hes : ∀ e ∈ es, e.Plain)
    (hfit : (image es).length + 1024 < maxOffset) {F : Bytes} (hF : F <+: image es ++ trailer) :
    (F.length < headerLength ∧ ∃ message, ∀ fuel, es.length + 3 ≤ fuel →
        ofFile fuel filename .read (some F) = some (.error message)) ∨
      ∃ s ls, (∀ fuel, es.length + 3 ≤ fuel →
          ofFile fuel filename .read (some F) = some (.ok (ofScan .read s))) ∧
        Indexed { bytes := F, out := false } s ls ∧ ls <+: es ∧
        ∀ front e back, es = front ++ e :: back →
          (image front).length + headerLength ≤ F.length → front ++ [e] <+: ls := by
  have hlenF : F.length < maxOffset := by
    have hle := hF.length_le
    rw [List.length_append, trailer, List.length_replicate] at hle
    omega
  have hdecodes : ∀ e ∈ es, e.Decodes := by
    intro e he
    apply (hes e he).toWellFormed.decodes
    apply lt_sizeBound
    have hentry := length_le_of_mem he
    unfold Entry.length at hentry
    omega
  have hstart : AtEntry { bytes := F, out := false } { file := { bytes := F, out := false } } [] :=
    ⟨⟨rfl, rfl, rfl, rfl, fun _ => rfl, fun _ => rfl⟩, ⟨rfl, rfl, rfl⟩, rfl, rfl, rfl⟩
  have hofFile : ∀ fuel, ofFile fuel filename .read (some F) =
      (Scan.loop fuel { file := { bytes := F, out := false } }).map fun result =>
        result.map (ofScan .read) := fun _ => rfl
  rcases prefix_image_cases hF with ⟨z, hz, rfl⟩ | ⟨front, e, back, cut, rfl, rfl, hcut, hlt⟩
  · -- All the entries are there.
    obtain ⟨s₁, h₁, hloop⟩ := AtEntry.loop_through hlenF es hstart hdecodes rfl
    rw [List.nil_append] at h₁
    have hzeros : z = List.replicate z.length 0 := by
      refine List.eq_replicate_of_mem fun c hc => ?_
      exact List.eq_of_mem_replicate (hz.subset hc)
    obtain ⟨s, hend, hindexed⟩ := h₁.loop_zeros (k := z.length) (by rw [← hzeros])
    refine Or.inr ⟨s, es, fun fuel hfuel => ?_, hindexed, List.prefix_refl _, ?_⟩
    · obtain ⟨n, rfl⟩ : ∃ n, fuel = n + 3 + es.length := ⟨fuel - 3 - es.length, by omega⟩
      rw [hofFile, hloop, hend]
      rfl
    · rintro front e back rfl -
      exact ⟨back, by simp⟩
  · -- The file ends in an entry, behind those in front of it.
    have hentry : (image front).length + e.length < maxOffset := by
      simp only [image_append, image_cons, List.length_append, e.length_bytes] at hfit
      omega
    have hfront : ∀ e ∈ front, e.Decodes := fun e he => hdecodes e (List.mem_append_left _ he)
    obtain ⟨s₁, h₁, hloop⟩ := AtEntry.loop_through hlenF front hstart hfront rfl
    rw [List.nil_append] at h₁
    have hfuels : ∀ fuel, (front ++ e :: back).length + 3 ≤ fuel →
        ∃ n, fuel = n + 3 + front.length := by
      intro fuel hfuel
      rw [List.length_append] at hfuel
      exact ⟨fuel - 3 - front.length, by omega⟩
    rcases h₁.loop_cut (hes e (by simp)) rfl hcut hlt hentry with
      ⟨hshort, hfirst, message, hend⟩ | ⟨s, listed, hend, hindexed, hlisted, hwhole⟩
    · -- Not even the first header has its magic, so the constructor throws.
      refine Or.inl ⟨by rw [List.length_append]; omega, message, fun fuel hfuel => ?_⟩
      obtain ⟨n, rfl⟩ := hfuels fuel hfuel
      rw [hofFile, hloop, hend]
      rfl
    · -- The entries in front are listed, and the cut one if its header is there.
      refine Or.inr ⟨s, front ++ listed, fun fuel hfuel => ?_, hindexed, ?_, ?_⟩
      · obtain ⟨n, rfl⟩ := hfuels fuel hfuel
        rw [hofFile, hloop, hend]
        rfl
      · rw [List.prefix_append_right_inj]
        exact hlisted.trans ⟨back, rfl⟩
      · intro front' e' back' heq hin
        have hprefix : front ++ [e] <+: front ++ e :: back := ⟨back, by simp⟩
        have hprefix' : front' ++ [e'] <+: front ++ e :: back := ⟨back', by rw [heq]; simp⟩
        rw [List.length_append] at hin
        rcases lt_trichotomy front'.length front.length with hless | hequal | hmore
        · -- The entry is one of those in front of the cut.
          refine (List.prefix_of_prefix_length_le hprefix' (List.prefix_append _ _) ?_).trans
            (List.prefix_append _ _)
          rw [List.length_append, List.length_singleton]
          omega
        · -- The entry is the one with the cut, which is in its data.
          obtain ⟨rfl, htail⟩ := List.append_inj heq hequal.symm
          obtain ⟨rfl, -⟩ := List.cons.inj htail
          rw [hwhole (by omega)]
        · -- The entry is behind the cut.
          have hbefore : front ++ [e] <+: front' :=
            List.prefix_of_prefix_length_le hprefix ⟨e' :: back', heq.symm⟩ (by
              rw [List.length_append, List.length_singleton]
              omega)
          obtain ⟨between, rfl⟩ := hbefore
          simp only [image_append, image_singleton, List.length_append, e.length_bytes] at hin
          omega

end TarArchive

end Libgetar
