import Libgetar.Tar.Truncate

/-!
# Reading what is left of a tar file

A file of records is cut off, opened for reading, and records are read from it. A read that the file
ends in makes the stream fail, and from then on nothing is read: `seekg` clears one flag of the two
only, and `read` looks at neither. So what the archive remembers of the reads is one bit
(`salvageStep`), which is set by the first read of a record whose data are cut
(`exec_salvageStep_iff`).

`reads_whole_iff` is what follows for the records that lie in the file: they are read in every order,
except behind a read of the record that is cut, when only an empty one is.
-/

namespace Libgetar

open Lib

namespace TarArchive

variable {F : Bytes} {es ls : List Entry}

/-- The header and the data of the record lie in the file. -/
def Whole (es : List Entry) (F : Bytes) (e : Entry) : Prop :=
  ∃ front back, es = front ++ e :: back ∧
    (image front).length + headerLength + e.data.length ≤ F.length

/-- The record has data, and the file ends in front of their end. -/
def Cut (es : List Entry) (F : Bytes) (e : Entry) : Prop :=
  ∃ front back, es = front ++ e :: back ∧ 0 < e.data.length ∧
    F.length < (image front).length + headerLength + e.data.length

/-! ## One bit -/

/-- A call of `read`. -/
def readStep (a : TarArchive) (q : Bytes × TarEnv) : TarArchive × Answer := step a (.read q.1, q.2)

/-- A read, where the bit says that the stream has failed. -/
def salvageStep (F : Bytes) (ls : List Entry) (failed : Bool) (q : Bytes × TarEnv) : Bool × Answer :=
  match lastWrite (index ls) q.1 with
  | none => (failed, .array none)
  | some (off, len) =>
    let got := if failed then [] else substr F off len
    (failed || decide (got.length < len),
      .array (some (got ++ ((List.range len).map q.2.fresh).drop got.length)))

/-- The archive is open on the file, its maps are the index of the entries, and the bit says whether
the stream has failed. -/
structure Opened (F : Bytes) (ls : List Entry) (a : TarArchive) (failed : Bool) : Prop where
  bytes : a.file.bytes = F
  isOpen : a.file.isOpen = true
  offsets : ∀ path, a.fileOffsets.find? path = (lastWrite (index ls) path).map Prod.fst
  sizes : ∀ path, a.fileSizes.find? path = (lastWrite (index ls) path).map Prod.snd
  eof : failed = false → a.file.eof = false
  fail : a.file.fail = failed

/-- One read. -/
theorem Opened.next {a : TarArchive} {failed : Bool} (h : Opened F ls a failed)
    (hsmall : (image ls).length < maxOffset) (q : Bytes × TarEnv) :
    Opened F ls (readStep a q).1 (salvageStep F ls failed q).1 ∧
      (readStep a q).2 = (salvageStep F ls failed q).2 := by
  rw [readStep, step, TarArchive.read, h.offsets, h.sizes, salvageStep]
  cases hlast : lastWrite (index ls) q.1 with
  | none => exact ⟨h, rfl⟩
  | some found =>
    obtain ⟨off, len⟩ := found
    have hoff : off < maxOffset := by
      have hin := (lastWrite_contents ls q.1).1 off len hlast
      omega
    simp only [Option.map_some, Option.getD_some]
    cases failed with
    | true =>
      -- The stream has failed, so neither call has an effect.
      have hseek : (a.file.seekg off).fail = true := by
        rw [FStream.seekg_of_fail h.fail]
        exact h.fail
      rw [FStream.read_of_fail hseek]
      obtain ⟨hbytes, hopen, -⟩ := a.file.frame_seekg off
      refine ⟨⟨hbytes.trans h.bytes, hopen.trans h.isOpen, h.offsets, h.sizes, ?_, hseek⟩, rfl⟩
      intro hnot
      cases hnot
    | false =>
      have hready : a.file.Ready := ⟨h.eof rfl, h.fail, h.isOpen⟩
      obtain ⟨moved, hseek, hmoved, hbytes, hpos⟩ : ∃ moved, a.file.seekg off = moved ∧
          moved.Ready ∧ moved.bytes = F ∧ moved.pos = off :=
        ⟨_, FStream.seekg_of_lt hready hoff, ⟨hready.eof, hready.fail, hready.isOpen⟩, h.bytes, rfl⟩
      have hgot : (moved.read len).1 = substr F off len := by
        rw [FStream.read_fst hmoved, hbytes, hpos]
      obtain ⟨heof, hfail⟩ := FStream.flags_read hmoved len
      obtain ⟨hsame, hopen, -⟩ := moved.frame_read len
      rw [hbytes, hpos] at heof hfail
      simp only [Bool.false_eq_true, if_false, Bool.false_or, hseek, hgot]
      exact ⟨⟨hsame.trans hbytes, hopen.trans hmoved.isOpen, h.offsets, h.sizes,
        fun hnot => heof.trans hnot, hfail⟩, trivial⟩

/-- Any number of reads. -/
theorem Opened.reads {a : TarArchive} {failed : Bool} (h : Opened F ls a failed)
    (hsmall : (image ls).length < maxOffset) (qs : List (Bytes × TarEnv)) :
    Opened F ls (exec readStep a qs) (exec (salvageStep F ls) failed qs) := by
  induction qs generalizing a failed with
  | nil => exact h
  | cons q qs ih => exact ih (h.next hsmall q).1

/-- A read that the file ends in. -/
def Stuck (F : Bytes) (ls : List Entry) (path : Bytes) : Prop :=
  ∃ off len, lastWrite (index ls) path = some (off, len) ∧ (substr F off len).length < len

/-- The stream has failed if one of the reads has met the end of the file. -/
theorem exec_salvageStep_iff (failed : Bool) (qs : List (Bytes × TarEnv)) :
    exec (salvageStep F ls) failed qs = true ↔ failed = true ∨ ∃ q ∈ qs, Stuck F ls q.1 := by
  have hstep : ∀ failed q,
      (salvageStep F ls failed q).1 = true ↔ failed = true ∨ Stuck F ls q.1 := by
    intro failed q
    rw [salvageStep, Stuck]
    cases hlast : lastWrite (index ls) q.1 with
    | none => simp
    | some found =>
      obtain ⟨off, len⟩ := found
      cases failed with
      | true => simp
      | false => simp
  induction qs generalizing failed with
  | nil => simp
  | cons q qs ih =>
    rw [exec_cons]
    refine (ih _).trans ?_
    rw [hstep, or_assoc, List.exists_mem_cons_iff]

/-! ## Records and the index -/

theorem map_fst_indexFrom (pos : ℕ) (es : List Entry) :
    (indexFrom pos es).map Prod.fst = es.map Entry.name := by
  induction es generalizing pos with
  | nil => rfl
  | cons e es ih => rw [indexFrom, List.map_cons, List.map_cons, ih]

/-- Where the index points for an entry whose name does not come again. -/
theorem lastWrite_index_of_nodup (hnodup : (es.map Entry.name).Nodup) {front back : List Entry}
    {e : Entry} (hes : es = front ++ e :: back) :
    lastWrite (index es) e.name =
      some ((image front).length + headerLength, e.data.length) := by
  rw [hes, List.map_append, List.nodup_append, List.map_cons, List.nodup_cons] at hnodup
  rw [hes, index, indexFrom_append, Nat.zero_add, indexFrom]
  refine lastWrite_append_cons _ _ ?_
  rw [map_fst_indexFrom]
  exact hnodup.2.1.1

/-- The index of the first entries points where that of all of them does. -/
theorem lastWrite_index_of_prefix (hnodup : (es.map Entry.name).Nodup) (hls : ls <+: es)
    {path : Bytes} (hmem : path ∈ ls.map Entry.name) :
    lastWrite (index ls) path = lastWrite (index es) path := by
  obtain ⟨e, he, rfl⟩ := List.mem_map.mp hmem
  obtain ⟨front, back, rfl⟩ := List.append_of_mem he
  obtain ⟨more, rfl⟩ := hls
  have hsplit : front ++ e :: back ++ more = front ++ e :: (back ++ more) := by simp
  rw [lastWrite_index_of_nodup (hnodup.sublist ((List.sublist_append_left _ _).map _)) rfl,
    lastWrite_index_of_nodup hnodup hsplit]

/-- In a file that was cut off, the data of a record that lies in it are where they were. -/
theorem substr_of_whole {tail : Bytes} (hF : F <+: image es ++ tail) {front back : List Entry}
    {e : Entry} (hes : es = front ++ e :: back)
    (hin : (image front).length + headerLength + e.data.length ≤ F.length) :
    substr F ((image front).length + headerLength) e.data.length = e.data := by
  have hlen : (image front ++ e.header).length = (image front).length + headerLength := by
    rw [List.length_append, e.length_header]
  have hfront : image front ++ e.header ++ e.data <+: image es ++ tail := by
    refine ⟨e.padding ++ (image back ++ tail), ?_⟩
    rw [hes, image_append, image_cons, Entry.bytes]
    simp only [List.append_assoc]
  obtain ⟨rest, rfl⟩ := List.prefix_of_prefix_length_le hfront hF (by
    rw [List.length_append, hlen]
    exact hin)
  rw [substr, ← hlen, List.append_assoc, List.drop_left, List.take_left]

/-! ## Reads in every order -/

/-- Whatever the memory holds that the reads are given, each read of a record that lies in the file
returns the data of the record. -/
def ReadsWhole (a : TarArchive) (es : List Entry) (F : Bytes) (paths : List Bytes) : Prop :=
  ∀ qs : List (Bytes × TarEnv), qs.map Prod.fst = paths →
    ∀ before q after, qs = before ++ q :: after → ∀ e, Whole es F e → e.name = q.1 →
      (readStep (exec readStep a before) q).2 = .array (some e.data)

/-- No read of a record with data that lies in the file comes behind a read of the record that is
cut. -/
def CutComesLast (es : List Entry) (F : Bytes) (paths : List Bytes) : Prop :=
  ∀ before path after, paths = before ++ path :: after →
    ∀ e, Whole es F e → e.name = path → e.data ≠ [] →
      ∀ e', Cut es F e' → e'.name ∉ before

/-- The read of a listed record fails if its data are cut. -/
theorem stuck_iff (hnodup : (es.map Entry.name).Nodup) (hls : ls <+: es) {path : Bytes}
    (hmem : path ∈ ls.map Entry.name) : Stuck F ls path ↔ ∃ e, Cut es F e ∧ e.name = path := by
  have hshort : ∀ off len : ℕ, (substr F off len).length < len ↔ 0 < len ∧ F.length < off + len := by
    intro off len
    rw [substr, List.length_take, List.length_drop]
    omega
  rw [Stuck, lastWrite_index_of_prefix hnodup hls hmem]
  constructor
  · rintro ⟨off, len, hlast, hcut⟩
    obtain ⟨e, he, rfl⟩ := List.mem_map.mp ((hls.map Entry.name).subset hmem)
    obtain ⟨front, back, hes⟩ := List.append_of_mem he
    rw [lastWrite_index_of_nodup hnodup hes, Option.some.injEq, Prod.mk.injEq] at hlast
    obtain ⟨rfl, rfl⟩ := hlast
    exact ⟨e, ⟨front, back, hes, (hshort _ _).mp hcut⟩, rfl⟩
  · rintro ⟨e, ⟨front, back, hes, hcut⟩, rfl⟩
    exact ⟨_, _, lastWrite_index_of_nodup hnodup hes, (hshort _ _).mpr hcut⟩

/-- Reads of listed records, in every order. -/
theorem Opened.reads_whole_iff {a : TarArchive} (h : Opened F ls a false)
    (hsmall : (image ls).length < maxOffset) (hnodup : (es.map Entry.name).Nodup)
    (hls : ls <+: es) {tail : Bytes} (hF : F <+: image es ++ tail) {paths : List Bytes}
    (hpaths : ∀ path ∈ paths, path ∈ ls.map Entry.name) :
    ReadsWhole a es F paths ↔ CutComesLast es F paths := by
  -- The bit behind some reads, and the answer of one more.
  have hfailed : ∀ before : List (Bytes × TarEnv), (∀ q ∈ before, q.1 ∈ ls.map Entry.name) →
      (exec (salvageStep F ls) false before = true ↔
        ∃ e, Cut es F e ∧ e.name ∈ before.map Prod.fst) := by
    intro before hbefore
    rw [exec_salvageStep_iff]
    constructor
    · rintro (hfalse | ⟨q, hq, hstuck⟩)
      · cases hfalse
      · obtain ⟨e, hcut, hname⟩ := (stuck_iff hnodup hls (hbefore q hq)).mp hstuck
        exact ⟨e, hcut, List.mem_map.mpr ⟨q, hq, hname.symm⟩⟩
    · rintro ⟨e, hcut, hname⟩
      obtain ⟨q, hq, hqname⟩ := List.mem_map.mp hname
      exact Or.inr ⟨q, hq, (stuck_iff hnodup hls (hbefore q hq)).mpr ⟨e, hcut, hqname.symm⟩⟩
  have hanswer : ∀ (before : List (Bytes × TarEnv)) (q : Bytes × TarEnv) (e : Entry),
      Whole es F e → e.name = q.1 → q.1 ∈ ls.map Entry.name →
      (readStep (exec readStep a before) q).2 =
        .array (some (if exec (salvageStep F ls) false before = true
          then (List.range e.data.length).map q.2.fresh else e.data)) := by
    rintro before q e ⟨front, back, hes, hin⟩ hname hlisted
    rw [((h.reads hsmall before).next hsmall q).2, salvageStep,
      lastWrite_index_of_prefix hnodup hls hlisted, ← hname, lastWrite_index_of_nodup hnodup hes]
    simp only [substr_of_whole hF hes hin]
    split
    · rfl
    · rw [List.drop_eq_nil_of_le, List.append_nil]
      rw [List.length_map, List.length_range]
  constructor
  · -- Behind a read of the cut record, a read gives what the memory holds.
    intro hreads before path after hsplit e hwhole hname hdata e' hcut hmem
    subst hname
    -- A memory that does not begin as the data do.
    obtain ⟨c, rest, hcons⟩ := List.exists_cons_of_ne_nil hdata
    let env : TarEnv := { now := 0, fresh := fun _ => if c = 0 then 1 else 0 }
    have hfst : ∀ l : List Bytes, (l.map fun path => (path, env)).map Prod.fst = l := by
      intro l
      rw [List.map_map]
      exact List.map_id l
    have hread := hreads (paths.map fun path => (path, env)) (hfst paths)
      (before.map fun path => (path, env)) (e.name, env) (after.map fun path => (path, env))
      (by rw [hsplit]; simp) e hwhole rfl
    have hbefore : ∀ q ∈ before.map fun path => (path, env), q.1 ∈ ls.map Entry.name := by
      intro q hq
      obtain ⟨path, hpath, rfl⟩ := List.mem_map.mp hq
      exact hpaths path (by rw [hsplit]; exact List.mem_append_left _ hpath)
    rw [hanswer _ _ e hwhole rfl (hpaths e.name (by rw [hsplit]; simp)),
      if_pos ((hfailed _ hbefore).mpr ⟨e', hcut, by rwa [hfst]⟩), hcons] at hread
    simp only [List.length_cons, List.range_succ_eq_map, List.map_cons, Answer.array.injEq,
      Option.some.injEq, List.cons.injEq, env] at hread
    split at hread
    · next hzero => exact absurd (hzero.symm.trans hread.1.symm) (by decide)
    · next hne => exact hne hread.1.symm
  · rintro hlast qs rfl before q after rfl e hwhole hname
    have hlisted : q.1 ∈ ls.map Entry.name := hpaths q.1 (by simp)
    have hbefore : ∀ q ∈ before, q.1 ∈ ls.map Entry.name := fun q hq =>
      hpaths q.1 (List.mem_map_of_mem (List.mem_append_left _ hq))
    rw [hanswer before q e hwhole hname hlisted]
    split
    · next hbit =>
      -- The stream has failed, so the record has no data.
      obtain ⟨e', hcut, hmem⟩ := (hfailed before hbefore).mp hbit
      have hnil : e.data = [] := by
        by_contra hdata
        exact hlast (before.map Prod.fst) q.1 (after.map Prod.fst) (by simp) e hwhole hname hdata
          e' hcut hmem
      rw [hnil]
      rfl
    · rfl

/-! ## The records of a session -/

/-- Nothing stands in the header of a short path from the prefix on. -/
theorem recordOf_plain {w : Write} (env : TarEnv) (hnul : (0 : UInt8) ∉ w.path)
    (hshort : w.path.length ≤ 99) (hlen : w.contents.length < sizeFieldBound) :
    (recordOf w env).Plain := by
  have hsplit : splitPath w.path = ([], w.path) := if_neg (by omega)
  have hstored : (recordOf w env).asStored = recordOf w env := by
    have hname : storedName (recordOf w env).name = (recordOf w env).name :=
      storedName_of_short hnul hshort
    rw [Entry.asStored, hname]
  have hwell := asStored_wellFormed w env hlen
  rw [hstored] at hwell
  refine ⟨hwell, fun c hc => ?_⟩
  have hdrop : (recordOf w env).header.drop prefixOffset =
      ((CharArray.zero 155).copy (splitPath w.path).1 154).bytes ++ (CharArray.zero 12).bytes :=
    TarHeader.drop_pathPrefix _
  rw [hdrop, hsplit, List.mem_append] at hc
  rcases hc with hc | hc
  · rw [CharArray.copy, List.take_nil, CharArray.bytes_store_zero (Nat.zero_le _)] at hc
    exact List.eq_of_mem_replicate hc
  · exact List.eq_of_mem_replicate hc

/-- Every record of a session with short paths is plain, and there are not more than calls. -/
theorem records_plain {calls : List (Write × TarEnv)} (hnul : ∀ c ∈ calls, (0 : UInt8) ∉ c.1.path)
    (hshort : ∀ c ∈ calls, c.1.path.length ≤ 99)
    (hsizes : ∀ c ∈ calls, c.1.contents.length < sizeFieldBound) :
    ∀ e ∈ records (writeCalls calls), e.Plain := by
  intro e he
  obtain ⟨call, hcall, hrecord⟩ := List.mem_filterMap.mp he
  obtain ⟨c, hc, rfl⟩ := List.mem_map.mp hcall
  simp only [record?] at hrecord
  split at hrecord
  · cases hrecord
    exact recordOf_plain c.2 (hnul c hc) (hshort c hc) (hsizes c hc)
  · cases hrecord

/-- With the maps of the scan, the archive is open on what is left of the file. -/
theorem Indexed.opened {s : Scan} (h : Indexed { bytes := F, out := false } s ls) :
    Opened F ls (ofScan .read s) false := by
  have hclear : s.file.clear.Ready := ⟨rfl, rfl, h.isOpen⟩
  have hfile : (ofScan .read s).file = { s.file.clear with pos := 0 } :=
    FStream.seekg_of_lt hclear (by decide)
  refine ⟨?_, ?_, h.offsets, h.sizes, fun _ => ?_, ?_⟩
  · rw [hfile]
    exact h.bytes
  · rw [hfile]
    exact h.isOpen
  · rw [hfile]
    rfl
  · rw [hfile]
    rfl

/-- Records with short names are written, the file is cut off anywhere, and it is opened. -/
theorem salvage_opened (filename : Bytes) {calls : List (Write × TarEnv)}
    (hnul : ∀ c ∈ calls, (0 : UInt8) ∉ c.1.path) (hshort : ∀ c ∈ calls, c.1.path.length ≤ 99)
    (hsizes : ∀ c ∈ calls, c.1.contents.length < sizeFieldBound)
    (hfit : (image (records (writeCalls calls))).length + 1024 < maxOffset) {fuel : ℕ}
    (hfuel : calls.length + 3 ≤ fuel)
    (hF : F <+: image (records (writeCalls calls)) ++ trailer) :
    (F.length < headerLength ∧
        ∃ message, ofFile fuel filename .read (some F) = some (.error message)) ∨
      ∃ a ls, ofFile fuel filename .read (some F) = some (.ok a) ∧ Opened F ls a false ∧
        a.fileNames = ls.map Entry.name ∧ ls <+: records (writeCalls calls) ∧
        ∀ front e back, records (writeCalls calls) = front ++ e :: back →
          (image front).length + headerLength ≤ F.length → front ++ [e] <+: ls := by
  have hcount : (records (writeCalls calls)).length ≤ calls.length :=
    (List.length_filterMap_le _ _).trans (by rw [writeCalls, List.length_map])
  rcases ofFile_prefix filename (records_plain hnul hshort hsizes) hfit hF with
    ⟨hcut, message, hthrows⟩ | ⟨s, ls, hopens, hindexed, hls, hlisted⟩
  · exact Or.inl ⟨hcut, message, hthrows fuel (by omega)⟩
  · exact Or.inr ⟨_, ls, hopens fuel (by omega), hindexed.opened, hindexed.names, hls, hlisted⟩

/-- Records with distinct short names are written, and the file is cut off anywhere. When it is
opened, the constructor throws, and then no record lies in the file, or it lists every record that
does. Reads of listed records, in any order, find these records exactly if no read of one with data
comes behind a read of the record that is cut. -/
theorem salvage_iff (filename : Bytes) (disk : Option Bytes) (calls : List (Write × TarEnv))
    (hnodup : (calls.map fun c => c.1.path).Nodup) (hnul : ∀ c ∈ calls, (0 : UInt8) ∉ c.1.path)
    (hshort : ∀ c ∈ calls, c.1.path.length ≤ 99)
    (hsizes : ∀ c ∈ calls, c.1.contents.length < sizeFieldBound)
    (hfit : (image (records (writeCalls calls))).length + 1024 < maxOffset) (fuel : ℕ)
    (hfuel : calls.length + 3 ≤ fuel) :
    ∃ bytes, session fuel filename .write disk (writeCalls calls) = some (.ok bytes) ∧
      ∀ F, F <+: bytes →
        ((∃ message, ofFile fuel filename .read (some F) = some (.error message)) ∧
          ∀ e, ¬ Whole (records (writeCalls calls)) F e) ∨
        ∃ a, ofFile fuel filename .read (some F) = some (.ok a) ∧
          (∀ e, Whole (records (writeCalls calls)) F e → e.name ∈ a.fileNames) ∧
          ∀ paths, (∀ path ∈ paths, path ∈ a.fileNames) →
            (ReadsWhole a (records (writeCalls calls)) F paths ↔
              CutComesLast (records (writeCalls calls)) F paths) := by
  have hnames : ((records (writeCalls calls)).map Entry.name).Nodup := by
    rw [names_records]
    exact hnodup.filter _
  refine ⟨_, session_write filename disk (writeCalls calls) hfit (by omega), fun F hF => ?_⟩
  rcases salvage_opened filename hnul hshort hsizes hfit hfuel hF with
    ⟨hcut, hthrows⟩ | ⟨a, ls, hopens, hopened, hlist, hls, hlisted⟩
  · refine Or.inl ⟨hthrows, ?_⟩
    rintro e ⟨front, back, -, hin⟩
    omega
  · have hsmall : (image ls).length < maxOffset := by
      obtain ⟨more, hmore⟩ := hls
      rw [← hmore, image_append, List.length_append] at hfit
      omega
    refine Or.inr ⟨a, hopens, ?_, fun paths hpaths => ?_⟩
    · rintro e ⟨front, back, hsplit, hin⟩
      rw [hlist]
      exact List.mem_map_of_mem ((hlisted front e back hsplit (by omega)).subset (by simp))
    · rw [hlist] at hpaths
      exact hopened.reads_whole_iff hsmall hnames hls hF hpaths

/-- Two records, and a file that ends in the data of the second one. -/
def tornCalls : List (Write × TarEnv) :=
  [(⟨lit "a", lit "hi", .noCompress, false⟩, { now := 0 }),
    (⟨lit "b", lit "yo", .noCompress, false⟩, { now := 0 })]

theorem records_tornCalls : records (writeCalls tornCalls) =
    [recordOf ⟨lit "a", lit "hi", .noCompress, false⟩ { now := 0 },
      recordOf ⟨lit "b", lit "yo", .noCompress, false⟩ { now := 0 }] := rfl

theorem tornCalls_fit : (image (records (writeCalls tornCalls))).length + 1024 < maxOffset := by
  rw [records_tornCalls]
  simp only [image_cons, image_nil, List.length_append, Entry.length_bytes]
  decide

theorem salvage_tornCalls :
    ∃ bytes, session 5 (lit "a.tar") .write none (writeCalls tornCalls) = some (.ok bytes) ∧
      ∀ F, F <+: bytes →
        ((∃ message, ofFile 5 (lit "a.tar") .read (some F) = some (.error message)) ∧
          ∀ e, ¬ Whole (records (writeCalls tornCalls)) F e) ∨
        ∃ a, ofFile 5 (lit "a.tar") .read (some F) = some (.ok a) ∧
          (∀ e, Whole (records (writeCalls tornCalls)) F e → e.name ∈ a.fileNames) ∧
          ∀ paths, (∀ path ∈ paths, path ∈ a.fileNames) →
            (ReadsWhole a (records (writeCalls tornCalls)) F paths ↔
              CutComesLast (records (writeCalls tornCalls)) F paths) :=
  salvage_iff (lit "a.tar") none tornCalls (by decide) (by decide) (by decide) (by decide)
    tornCalls_fit 5 (by decide)

/-- The record that lies in the file is not found behind a read of the other one. -/
theorem salvage_counterexample :
    ∃ bytes a, session 5 (lit "a.tar") .write none (writeCalls tornCalls) = some (.ok bytes) ∧
      ofFile 5 (lit "a.tar") .read (some (bytes.take 1537)) = some (.ok a) ∧
      (lit "a" ∈ a.fileNames ∧ lit "b" ∈ a.fileNames) ∧
      Whole (records (writeCalls tornCalls)) (bytes.take 1537)
        (recordOf ⟨lit "a", lit "hi", .noCompress, false⟩ { now := 0 }) ∧
      ¬ ReadsWhole a (records (writeCalls tornCalls)) (bytes.take 1537) [lit "b", lit "a"] := by
  let e₁ := recordOf ⟨lit "a", lit "hi", .noCompress, false⟩ { now := 0 }
  let e₂ := recordOf ⟨lit "b", lit "yo", .noCompress, false⟩ { now := 0 }
  let F := (image (records (writeCalls tornCalls)) ++ trailer).take 1537
  have hlen₁ : e₁.length = 1024 := by decide
  have himage : (image (records (writeCalls tornCalls))).length = 2048 := by
    rw [records_tornCalls, image_cons, image_singleton, List.length_append, Entry.length_bytes,
      Entry.length_bytes]
    decide
  have hlen : F.length = 1537 := by
    rw [List.length_take, List.length_append, himage, trailer, List.length_replicate]
    decide
  have hF : F <+: image (records (writeCalls tornCalls)) ++ trailer := List.take_prefix _ _
  have hfirst : (image [e₁]).length = 1024 := by
    rw [image_singleton, e₁.length_bytes, hlen₁]
  have hwhole : Whole (records (writeCalls tornCalls)) F e₁ :=
    ⟨[], [e₂], rfl, by rw [hlen]; decide⟩
  have hcut : Cut (records (writeCalls tornCalls)) F e₂ :=
    ⟨[e₁], [], rfl, by decide, by rw [hlen, hfirst]; decide⟩
  have hnul : ∀ c ∈ tornCalls, (0 : UInt8) ∉ c.1.path := by decide
  rcases salvage_opened (lit "a.tar") hnul (by decide) (by decide) tornCalls_fit
    (show tornCalls.length + 3 ≤ 5 by decide) hF with
    ⟨hshort, -⟩ | ⟨a, ls, hopens, hopened, hlist, hls, hlisted⟩
  · rw [hlen] at hshort
    exact absurd hshort (by decide)
  · -- Both headers are whole, so both records are listed.
    have hboth : [e₁] ++ [e₂] <+: ls := hlisted [e₁] e₂ [] rfl (by rw [hlen, hfirst]; decide)
    have hmem₁ : lit "a" ∈ ls.map Entry.name :=
      List.mem_map_of_mem (f := Entry.name) (a := e₁) (hboth.subset (by simp))
    have hmem₂ : lit "b" ∈ ls.map Entry.name :=
      List.mem_map_of_mem (f := Entry.name) (a := e₂) (hboth.subset (by simp))
    refine ⟨_, a, session_write (lit "a.tar") none (writeCalls tornCalls) tornCalls_fit (by decide),
      hopens, by rw [hlist]; exact ⟨hmem₁, hmem₂⟩, hwhole, fun hreads => ?_⟩
    have hsmall : (image ls).length < maxOffset := by
      have hle := tornCalls_fit
      obtain ⟨more, hmore⟩ := hls
      rw [← hmore, image_append, List.length_append] at hle
      omega
    have hlast := (hopened.reads_whole_iff hsmall (by decide) hls hF (by
      intro path hpath
      rcases List.mem_cons.mp hpath with rfl | hpath
      · exact hmem₂
      · rw [List.mem_singleton.mp hpath]
        exact hmem₁)).mp hreads
    exact hlast [lit "b"] (lit "a") [] rfl e₁ hwhole rfl (by decide) e₂ hcut (by simp; rfl)

end TarArchive

end Libgetar
