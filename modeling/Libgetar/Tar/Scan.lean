import Libgetar.Tar.Layout

/-!
# The scan of a tar file

What the constructor's loop makes of a well-formed file: entries, and then the end of the file or an
empty block (`EndsFile`). The loop is at an entry when the stream and `offset` stand behind the
entries that it has seen and the maps are their index (`AtEntry`). One iteration takes it to the
next entry (`step_entry`), the last one stops it (`step_end`), and `AtEntry.loop` puts the iterations
together. Data are skipped by `seekg` and never decoded, so nothing is asked of them.

`scan_well_formed` is the result for files made by anyone, where the fields are those of the ustar
format (`Entry.WellFormed`). The loop itself only needs that name and size are decoded
(`Entry.Decodes`).
-/

namespace Libgetar

open Lib

namespace TarArchive

/-! ## Well-formed entries -/

/-- A text that is `n` in octal digits, possibly with spaces around it. -/
def IsOctalOf (text : Bytes) (n : ℕ) : Prop :=
  ∃ before digits after : Bytes, text = before ++ (digits ++ after) ∧ (∀ c ∈ before, c = 32) ∧
    (∀ c ∈ after, c = 32) ∧ digits ≠ [] ∧ (∀ c ∈ digits, isDigit 8 c = true) ∧
    digitsValue 8 digits = n

/-- The header is a ustar header for the data, and the entry is named by prefix and name. -/
structure Entry.WellFormed (e : Entry) : Prop where
  magic : substr e.header magicOffset 5 = lit "ustar"
  nul_name : 0 ∈ substr e.header nameOffset 100
  nul_pathPrefix : 0 ∈ substr e.header prefixOffset 155
  nul_size : 0 ∈ substr e.header sizeOffset 12
  size : IsOctalOf (cStr (substr e.header sizeOffset 12)) e.data.length
  name : e.name = cStr (substr e.header prefixOffset 155) ++
    cStr (substr e.header nameOffset 100)

/-- What can follow the last entry. -/
def EndsFile (tail : Bytes) : Prop :=
  tail = [] ∨ ∃ rest, tail = List.replicate headerLength 0 ++ rest

/-- What the loop needs of an entry: that its name and its size are decoded. -/
structure Entry.Decodes (e : Entry) : Prop where
  magic : substr e.header magicOffset 5 = lit "ustar"
  name : headerName e.header = e.name
  size : headerSize e.header = e.data.length

/-- The fields of a well-formed header are decoded. -/
theorem Entry.WellFormed.decodes {e : Entry} (h : e.WellFormed) (hlen : e.data.length < sizeBound) :
    e.Decodes := by
  refine ⟨h.magic, ?_, ?_⟩
  · rw [headerName, cString_of_mem h.nul_pathPrefix, cString_of_mem h.nul_name, h.name]
  · obtain ⟨before, digits, after, htext, hbefore, hafter, hne, hdigits, hvalue⟩ := h.size
    have hspace : ∀ c ∈ before, isSpace c = true := fun c hc => by rw [hbefore c hc]; rfl
    have hnot : ∀ c ∈ after.head?, isDigit 8 c = false := fun c hc => by
      rw [hafter c (List.mem_of_mem_head? hc)]
      rfl
    have hsmall : digitsValue 8 digits < sizeBound := by
      rw [hvalue]
      exact hlen
    have hstring : cString e.header sizeOffset = before ++ (digits ++ after) := by
      rw [cString_of_mem h.nul_size]
      exact htext
    rw [headerSize, hstring, extract_digits hspace hne hdigits hnot hsmall, hvalue]

/-! ## The records of this library -/

/-- The name that is decoded for a path: what the two fields hold of it. -/
def storedName (path : Bytes) : Bytes :=
  cStr ((splitPath path).1.take 154) ++ cStr ((splitPath path).2.take 99)

/-- An entry that was made for a path, under the name that is decoded for it. -/
def Entry.asStored (e : Entry) : Entry := { e with name := storedName e.name }

/-- The library writes well-formed entries, as long as the length fits the size field. -/
theorem asStored_wellFormed (w : Write) (env : TarEnv) (hlen : w.contents.length < sizeFieldBound) :
    (recordOf w env).asStored.WellFormed := by
  let h := TarHeader.ofEntry (splitPath w.path).1 (splitPath w.path).2 w.contents.length env
  let digits := fill 48 11 (numeral 8 w.contents.length)
  obtain ⟨hnul, hname⟩ := TarHeader.cStr_of_copy h.substr_name
  obtain ⟨hnul', hprefix⟩ := TarHeader.cStr_of_copy h.substr_pathPrefix
  have hmagic : substr h.toBytes magicOffset 6 = lit "ustar" ++ [0] := TarHeader.magic_ofEntry _ _ _
  have hsize : substr h.toBytes sizeOffset 12 = digits ++ [0] := by
    rw [TarHeader.size_ofEntry, TarHeader.sizeDigits_of_lt hlen]
  have hdigit : ∀ c ∈ digits, isDigit 8 c = true := fun c hc =>
    isDigit_of_mem_fill_numeral (by omega) (by omega) hc
  have htext : cStr (digits ++ [0]) = digits := cStr_digits hdigit
  refine ⟨?_, hnul, hnul', ?_, ?_, ?_⟩
  · have hfive : substr h.toBytes magicOffset 5 = (substr h.toBytes magicOffset 6).take 5 := by
      rw [substr, substr, List.take_take]
      rfl
    exact hfive.trans (by rw [hmagic]; rfl)
  · exact hsize ▸ List.mem_append_right _ List.mem_cons_self
  · refine ⟨[], digits, [], ?_, by simp, by simp, ?_, hdigit, ?_⟩
    · exact (congrArg cStr hsize).trans (htext.trans (by simp))
    · exact List.append_ne_nil_of_right_ne_nil _ (numeral_ne_nil _ _)
    · exact digitsValue_fill_numeral (by omega) (by omega) 11 _
  · exact congrArg₂ (· ++ ·) hprefix.symm hname.symm

/-! ## The loop -/

/-- The maps are the index of the entries, and the stream is still on the file. -/
structure Indexed (file : FStream) (s : Scan) (es : List Entry) : Prop where
  bytes : s.file.bytes = file.bytes
  out : s.file.out = file.out
  isOpen : s.file.isOpen = true
  names : s.fileNames = es.map Entry.name
  offsets : ∀ path, s.fileOffsets.find? path = (lastWrite (index es) path).map Prod.fst
  sizes : ∀ path, s.fileSizes.find? path = (lastWrite (index es) path).map Prod.snd

/-- The loop has seen the entries, and stands behind them. -/
structure AtEntry (file : FStream) (s : Scan) (es : List Entry) : Prop
    extends Indexed file s es where
  ready : s.file.Ready
  pos : s.file.pos = (image es).length
  offset : s.offset = (image es).length
  done : s.done = false

/-- A block that is read whole. -/
theorem read_block {file : FStream} {front block rest : Bytes} (h : file.Ready)
    (hbytes : file.bytes = front ++ (block ++ rest)) (hpos : file.pos = front.length) :
    file.read block.length = (block, { file with pos := file.pos + block.length }) := by
  rw [FStream.read_of_le h]
  · rw [hbytes, hpos, substr, List.drop_left, List.take_left]
  · rw [hbytes, hpos]
    simp only [List.length_append]
    omega

/-- A block of zeros. -/
theorem all_replicate_zero (n : ℕ) : (List.replicate n (0 : UInt8)).all (· == 0) = true := by
  simp

/-- The magic of an entry that decodes. -/
theorem Entry.Decodes.magic_field {e : Entry} (h : e.Decodes) :
    (substr e.header magicOffset 6).head? ≠ some 0 ∧
      (substr e.header magicOffset 6).take 5 = lit "ustar" := by
  have htake : (substr e.header magicOffset 6).take 5 = lit "ustar" := by
    rw [← h.magic, substr, substr, List.take_take]
    rfl
  refine ⟨fun hhead => ?_, htake⟩
  have hfirst : ((substr e.header magicOffset 6).take 5).head? = some 0 := by
    rw [List.head?_take, hhead]
    rfl
  rw [htake] at hfirst
  exact absurd hfirst (by decide)

/-- An entry is recorded at the end of the index. -/
theorem Indexed.add {file : FStream} {s : Scan} {es : List Entry} (h : Indexed file s es)
    (hoffset : s.offset = (image es).length) (e : Entry)
    (hfit : (image es).length + e.length < maxOffset) (stream : FStream)
    (hbytes : stream.bytes = file.bytes) (hout : stream.out = file.out)
    (hopen : stream.isOpen = true) :
    Indexed file (s.add stream e.name e.data.length) (es ++ [e]) ∧
      (s.add stream e.name e.data.length).file = stream.seekg ((image es).length + e.length) ∧
      (s.add stream e.name e.data.length).offset = (image es).length + e.length := by
  have hlength : e.length = headerLength + e.data.length + padLength e.data.length := rfl
  -- None of the sums overflows.
  have hnext : (s.offset + (headerLength + blockCeil e.data.length)) % sizeBound =
      (image es).length + e.length := by
    rw [hoffset, blockCeil_of_lt (by omega), mod_sizeBound (by omega)]
    omega
  have hdata : (s.offset + headerLength) % sizeBound = (image es).length + headerLength := by
    rw [hoffset, mod_sizeBound (by omega)]
  have hindex (path : Bytes) : lastWrite (index (es ++ [e])) path =
      if path = e.name then some ((image es).length + headerLength, e.data.length)
      else lastWrite (index es) path := by
    rw [index_concat, lastWrite_concat]
  obtain ⟨hsame, hsameOpen, hsameOut⟩ := stream.frame_seekg ((image es).length + e.length)
  unfold Scan.add
  simp only [hnext, hdata]
  refine ⟨⟨hsame.trans hbytes, hsameOut.trans hout, hsameOpen.trans hopen, ?_, ?_, ?_⟩, trivial, trivial⟩
  · rw [h.names, List.map_append, List.map_singleton]
  · intro path
    simp only [StdMap.find?_insert, h.offsets, hindex]
    split
    · rfl
    · rfl
  · intro path
    simp only [StdMap.find?_insert, h.sizes, hindex]
    split
    · rfl
    · rfl

/-- An iteration at an entry takes the loop behind it. -/
theorem AtEntry.step_entry {file : FStream} {s : Scan} {es : List Entry} {e : Entry}
    (h : AtEntry file s es) (he : e.Decodes) {rest : Bytes}
    (hbytes : file.bytes = image es ++ (e.bytes ++ rest)) (hlen : file.bytes.length < maxOffset) :
    ∃ s', s.step = .ok s' ∧ AtEntry file s' (es ++ [e]) := by
  have hfit : (image es).length + e.length < maxOffset := by
    rw [hbytes, List.length_append, List.length_append, e.length_bytes] at hlen
    omega
  have himageLength : (image (es ++ [e])).length = (image es).length + e.length := by
    rw [image_append, image_singleton, List.length_append, e.length_bytes]
  -- The header is read.
  have hblock : s.file.bytes = image es ++ (e.header ++ (e.data ++ e.padding ++ rest)) := by
    rw [h.bytes, hbytes, Entry.bytes]
    simp only [List.append_assoc]
  have hread : s.file.read headerLength =
      (e.header, { s.file with pos := s.file.pos + headerLength }) := by
    have := read_block h.ready hblock h.pos
    rwa [e.length_header] at this
  have hheader : e.header ++ List.replicate (headerLength - e.header.length) (0 : UInt8) =
      e.header := by
    rw [e.length_header, Nat.sub_self, List.replicate_zero, List.append_nil]
  obtain ⟨hhead, htake⟩ := he.magic_field
  have hready : ({ s.file with pos := s.file.pos + headerLength } : FStream).Ready :=
    ⟨h.ready.eof, h.ready.fail, h.ready.isOpen⟩
  obtain ⟨hindexed, hfile, hoffset⟩ :=
    h.toIndexed.add h.offset e hfit { s.file with pos := s.file.pos + headerLength } h.bytes h.out
      h.isOpen
  rw [FStream.seekg_of_lt hready hfit] at hfile
  refine ⟨s.add { s.file with pos := s.file.pos + headerLength } e.name e.data.length, ?_,
    hindexed, ?_, ?_, ?_, h.done⟩
  · simp only [Scan.step, hread, hheader, hhead, htake, ne_eq, not_true_eq_false, if_false, he.name,
      he.size]
  · rw [hfile]
    exact ⟨h.ready.eof, h.ready.fail, h.ready.isOpen⟩
  · rw [hfile, himageLength]
  · rw [hoffset, himageLength]

/-- Behind the last entry, an iteration stops the loop, and the maps stay. -/
theorem AtEntry.step_end {file : FStream} {s : Scan} {es : List Entry} {tail : Bytes}
    (h : AtEntry file s es) (hbytes : file.bytes = image es ++ tail) (htail : EndsFile tail) :
    ∃ s', s.step = .ok s' ∧ s'.done = true ∧ Indexed file s' es := by
  have hmagic : (substr (List.replicate headerLength (0 : UInt8)) magicOffset 6).head? = some 0 := by
    decide
  have hzero := all_replicate_zero headerLength
  rcases htail with rfl | ⟨rest, rfl⟩
  · -- The end of the file: nothing is read into the zeroed block.
    have hend : s.file.pos = s.file.bytes.length := by
      rw [h.pos, h.bytes, hbytes, List.append_nil]
    have hread := FStream.read_of_lt h.ready (n := headerLength)
      (by rw [hend]; unfold headerLength; omega) (le_of_eq hend)
    rw [hend, List.drop_length] at hread
    let file' := { s.file with pos := s.file.bytes.length, eof := true, fail := true }
    refine ⟨{ s with file := file', done := true }, ?_, rfl, ?_⟩
    · simp only [Scan.step, hread, List.length_nil, Nat.sub_zero, List.nil_append, hmagic, if_true,
        hzero, Bool.or_true, file']
    · exact ⟨h.bytes, h.out, h.isOpen, h.names, h.offsets, h.sizes⟩
  · -- An empty block.
    have hread := read_block h.ready (h.bytes.trans hbytes) h.pos
    rw [List.length_replicate] at hread
    let file' := { s.file with pos := s.file.pos + headerLength }
    refine ⟨{ s with file := file', done := true }, ?_, rfl, ?_⟩
    · simp only [Scan.step, hread, List.length_replicate, Nat.sub_self, List.replicate_zero,
        List.append_nil, hmagic, if_true, hzero, Bool.or_true, file']
    · exact ⟨h.bytes, h.out, h.isOpen, h.names, h.offsets, h.sizes⟩

/-- A loop that is not done makes an iteration. -/
theorem loop_of_go {s : Scan} (heof : s.file.eof = false) (hdone : s.done = false) (fuel : ℕ) :
    Scan.loop (fuel + 1) s =
      match s.step with
      | .error message => some (.error message)
      | .ok s' => Scan.loop fuel s' := by
  rw [Scan.loop, heof, hdone]
  rfl

/-- When the loop is done, it ends. -/
theorem loop_of_stop {s : Scan} (hstop : s.file.eof = true ∨ s.done = true) (fuel : ℕ) :
    Scan.loop (fuel + 1) s = some (.ok s) := by
  rw [Scan.loop, if_neg]
  rcases hstop with heof | hdone
  · rw [heof]
    simp
  · rw [hdone]
    simp

/-- At an entry the loop makes an iteration. -/
theorem AtEntry.loop_succ {file : FStream} {s : Scan} {es : List Entry} (h : AtEntry file s es)
    (fuel : ℕ) : Scan.loop (fuel + 1) s =
      match s.step with
      | .error message => some (.error message)
      | .ok s' => Scan.loop fuel s' :=
  loop_of_go h.ready.eof h.done fuel

/-- From an entry, the loop runs through the entries that follow. The induction is on these
entries. -/
theorem AtEntry.loop_through {file : FStream} {rest : Bytes} (hlen : file.bytes.length < maxOffset) :
    ∀ {s : Scan} {es : List Entry} (es' : List Entry), AtEntry file s es →
      (∀ e ∈ es', e.Decodes) → file.bytes = image (es ++ es') ++ rest →
      ∃ s', AtEntry file s' (es ++ es') ∧
        ∀ fuel, Scan.loop (fuel + es'.length) s = Scan.loop fuel s' := by
  intro s es es'
  induction es' generalizing s es with
  | nil =>
    intro h _ _
    exact ⟨s, by rwa [List.append_nil], fun _ => rfl⟩
  | cons e es' ih =>
    intro h hes hbytes
    have hcut : image (es ++ e :: es') ++ rest = image es ++ (e.bytes ++ (image es' ++ rest)) := by
      simp only [image_append, image_cons, List.append_assoc]
    obtain ⟨s₁, hstep, h₁⟩ :=
      h.step_entry (hes e List.mem_cons_self) (hbytes.trans hcut) hlen
    have happend : es ++ e :: es' = es ++ [e] ++ es' := by simp
    obtain ⟨s', h', hloop⟩ :=
      ih h₁ (fun e he => hes e (List.mem_cons_of_mem _ he)) (by rw [hbytes, happend])
    refine ⟨s', by rwa [happend], fun fuel => ?_⟩
    rw [List.length_cons, ← Nat.add_assoc, h.loop_succ, hstep]
    exact hloop fuel

/-- From an entry, the loop runs through the entries that are left, and ends. -/
theorem AtEntry.loop {file : FStream} {s : Scan} {es es' : List Entry} {tail : Bytes}
    (h : AtEntry file s es) (htail : EndsFile tail) (hlen : file.bytes.length < maxOffset)
    (hes : ∀ e ∈ es', e.Decodes) (hbytes : file.bytes = image (es ++ es') ++ tail) :
    ∃ s', (∀ fuel, es'.length + 2 ≤ fuel → Scan.loop fuel s = some (.ok s')) ∧
      Indexed file s' (es ++ es') := by
  obtain ⟨s₁, h₁, hloop⟩ := AtEntry.loop_through hlen es' h hes hbytes
  obtain ⟨s', hstep, hdone, hindexed⟩ := h₁.step_end hbytes htail
  refine ⟨s', fun fuel hfuel => ?_, hindexed⟩
  obtain ⟨n, rfl⟩ : ∃ n, fuel = n + 2 + es'.length := ⟨fuel - 2 - es'.length, by omega⟩
  rw [hloop, h₁.loop_succ, hstep]
  exact loop_of_stop (Or.inr hdone) n

/-! ## The constructor -/

/-- The last name is that of the last entry, so the entry that the maps have for it is that one,
and the next record goes behind it. -/
theorem Indexed.maxPosition {file : FStream} {s : Scan} {es : List Entry} (h : Indexed file s es)
    (hsmall : (image es).length < maxOffset) : s.maxPosition = (image es).length := by
  unfold Scan.maxPosition
  rw [h.names]
  rcases List.eq_nil_or_concat' es with rfl | ⟨front, last, rfl⟩
  · rfl
  · have hlast : lastWrite (index (front ++ [last])) last.name =
        some ((image front).length + headerLength, last.data.length) := by
      rw [index_concat, lastWrite_concat, if_pos rfl]
    have hlength : (image (front ++ [last])).length = (image front).length + last.length := by
      rw [image_append, image_singleton, List.length_append, last.length_bytes]
    have hparts : last.length = headerLength + last.data.length + padLength last.data.length := rfl
    rw [hlength] at hsmall ⊢
    simp only [List.map_append, List.map_cons, List.map_nil, List.getLast?_append_cons,
      List.getLast?_singleton, h.offsets, h.sizes, hlast, Option.map_some, Option.getD_some]
    rw [blockCeil_of_lt (by omega), mod_sizeBound (by omega)]
    omega

/-- With the maps of the scan, the archive is open on the file. -/
theorem Indexed.holds {file : FStream} {s : Scan} {es : List Entry} {tail : Bytes}
    (h : Indexed file s es) (hbytes : file.bytes = image es ++ tail)
    (hlen : file.bytes.length < maxOffset) {mode : OpenMode} (hout : mode ≠ .read → file.out = true) :
    Holds (ofScan mode s) es tail := by
  have hsmall : (image es).length < maxOffset := by
    rw [hbytes, List.length_append] at hlen
    omega
  have hmax := h.maxPosition hsmall
  have hclear : s.file.clear.Ready := ⟨rfl, rfl, h.isOpen⟩
  have hseekg := FStream.seekg_of_lt hclear (show 0 < maxOffset by decide)
  have hready : (s.file.clear.seekg 0).Ready := by
    rw [hseekg]
    exact ⟨rfl, rfl, h.isOpen⟩
  have hseekp := FStream.seekp_of_lt hready hsmall
  -- The stream is at the beginning, and for appending at the end of the entries.
  have hfile : (ofScan mode s).file =
      { s.file.clear with pos := if mode = .append then (image es).length else 0 } := by
    unfold ofScan
    rw [hmax]
    split
    · simp only [hseekp]
      rw [hseekg]
    · exact hseekg
  refine ⟨?_, ?_, h.names, h.offsets, h.sizes, hmax, ?_, ?_, hsmall⟩
  · rw [hfile]
    exact h.bytes.trans hbytes
  · rw [hfile]
    exact ⟨rfl, rfl, h.isOpen⟩
  · rw [hfile]
    unfold ofScan
    rw [hmax]
  · intro hmode
    rw [hfile]
    exact h.out.trans (hout hmode)

/-- The constructor, on a file of entries: it returns, and the archive is open on the entries. -/
theorem ofFile_holds {mode : OpenMode} {disk : Option Bytes} {file : FStream} {es : List Entry}
    {tail : Bytes} (hopen : openFile mode disk = some file) (hbytes : file.bytes = image es ++ tail)
    (hes : ∀ e ∈ es, e.Decodes) (htail : EndsFile tail) (hlen : file.bytes.length < maxOffset)
    (filename : Bytes) :
    ∃ a, (∀ fuel, es.length + 2 ≤ fuel → ofFile fuel filename mode disk = some (.ok a)) ∧
      Holds a es tail ∧ a.mode = mode := by
  have hstream : file.Ready ∧ file.pos = 0 ∧ (mode ≠ .read → file.out = true) := by
    unfold openFile at hopen
    split at hopen
    all_goals cases hopen
    · exact ⟨⟨rfl, rfl, rfl⟩, rfl, fun _ => rfl⟩
    · exact ⟨⟨rfl, rfl, rfl⟩, rfl, fun _ => rfl⟩
    · exact ⟨⟨rfl, rfl, rfl⟩, rfl, fun h => absurd rfl h⟩
  obtain ⟨hready, hpos, hout⟩ := hstream
  have hstart : AtEntry file { file := file } [] :=
    ⟨⟨rfl, rfl, hready.isOpen, rfl, fun _ => rfl, fun _ => rfl⟩, hready, hpos, rfl, rfl⟩
  obtain ⟨s, hloop, hindexed⟩ := hstart.loop htail hlen hes hbytes
  refine ⟨ofScan mode s, fun fuel hfuel => ?_, hindexed.holds hbytes hlen hout, rfl⟩
  rw [ofFile, hopen]
  simp only [hloop fuel hfuel, Option.map_some]
  rfl

/-- Any number of reads: each one gives the data of the last entry with its name. -/
theorem Holds.reads {a : TarArchive} {es : List Entry} {tail : Bytes} (h : Holds a es tail)
    (qs : List (Bytes × TarEnv)) :
    outputs step a (qs.map fun q => (.read q.1, q.2)) =
      qs.map fun q => .array (lastWrite (contents es) q.1) := by
  induction qs generalizing a with
  | nil => rfl
  | cons q qs ih =>
    obtain ⟨hread, hnext⟩ := h.read q.1 q.2
    simp only [List.map_cons, outputs_cons, step, hread]
    rw [ih hnext]

/-- A file of well-formed entries, made by anyone and with any data: the scan ends without throwing,
the maps are the index of the file, and every read gives the data of the last entry with the
name. -/
theorem scan_well_formed (es : List Entry) (hes : ∀ e ∈ es, e.WellFormed) (tail : Bytes)
    (htail : EndsFile tail) (hlen : (image es ++ tail).length < maxOffset) (filename : Bytes)
    (mode : OpenMode) (hmode : mode ≠ .write) :
    ∃ a, (∀ fuel, es.length + 2 ≤ fuel →
        ofFile fuel filename mode (some (image es ++ tail)) = some (.ok a)) ∧
      a.fileNames = es.map Entry.name ∧
      (∀ path, a.fileOffsets.find? path = (lastWrite (index es) path).map Prod.fst) ∧
      (∀ path, a.fileSizes.find? path = (lastWrite (index es) path).map Prod.snd) ∧
      a.maxPosition = (image es).length ∧
      ∀ qs : List (Bytes × TarEnv), outputs step a (qs.map fun q => (.read q.1, q.2)) =
        qs.map fun q => .array (lastWrite (contents es) q.1) := by
  have hdecodes : ∀ e ∈ es, e.Decodes := by
    intro e he
    apply (hes e he).decodes
    apply lt_sizeBound
    have hdata : e.data.length ≤ e.length := by
      unfold Entry.length
      omega
    have hentry := length_le_of_mem he
    rw [List.length_append] at hlen
    omega
  obtain ⟨file, hopen, hbytes⟩ : ∃ file, openFile mode (some (image es ++ tail)) = some file ∧
      file.bytes = image es ++ tail := by
    cases mode with
    | write => exact absurd rfl hmode
    | append => exact ⟨_, rfl, rfl⟩
    | read => exact ⟨_, rfl, rfl⟩
  obtain ⟨a, hfile, h, -⟩ :=
    ofFile_holds hopen hbytes hdecodes htail (by rw [hbytes]; exact hlen) filename
  exact ⟨a, hfile, h.names, h.offsets, h.sizes, h.maxPosition, h.reads⟩

/-- A file with one entry, whose data begin as the magic does, is scanned and read. -/
theorem scan_one_entry :
    ∃ a, ofFile 3 (lit "a.tar") .read (some (image [(recordOf ⟨lit "a", lit "ustar", .noCompress, false⟩
        { now := 0 }).asStored])) = some (.ok a) ∧
      a.fileNames = [lit "a"] ∧ (a.read (lit "a") { now := 0 }).2 = some (lit "ustar") := by
  let e := (recordOf ⟨lit "a", lit "ustar", .noCompress, false⟩ { now := 0 }).asStored
  have hes : ∀ e' ∈ [e], e'.WellFormed := by
    intro e' he'
    rw [List.mem_singleton.mp he']
    exact asStored_wellFormed _ _ (by decide)
  have hlen : (image [e] ++ []).length < maxOffset := by
    rw [List.append_nil, image_singleton, e.length_bytes]
    decide
  obtain ⟨a, hfile, hnames, -, -, -, hreads⟩ :=
    scan_well_formed [e] hes [] (Or.inl rfl) hlen (lit "a.tar") .read (by decide)
  refine ⟨a, ?_, hnames, ?_⟩
  · simpa using hfile 3 (by decide)
  · have := hreads [(lit "a", { now := 0 })]
    simp only [List.map_cons, List.map_nil, outputs_cons, outputs_nil, step, List.cons.injEq,
      Answer.array.injEq, and_true] at this
    rw [this]
    decide

end TarArchive

end Libgetar
