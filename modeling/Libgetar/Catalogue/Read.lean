import Libgetar.Catalogue.Run
import Libgetar.Tar.Session

/-!
# Reading what the catalogue lists

Three notions of a path meet here: the key of the backend, the parsed record in the catalogue, and
the path that is printed from the record to read it. `Backend.Exact` is the law of a backend that
keeps contents under the exact path, and a tar file meets it (`tarBackend_exact`).

Over a run of successful calls (`Serves.run`), the catalogue lists what the backend keeps. A read of
a catalogued record looks for the path of the record, so it finds the last write to the record if
that was made under this path (`lastWrite_of_latest`); under a path with leading separators it is
kept elsewhere. The paths that are printed as they are written are the plain ones (`plain_iff`).
-/

namespace Libgetar

open Lib

variable {σ ε : Type*}

/-- The backend keeps contents under the exact path: `Keeps` says which log a state has, and
`Succeeds` which writes are successful. -/
structure Backend.Exact (B : Backend σ ε) (Keeps : σ → Store → Prop)
    (Succeeds : σ → Write → ε → Prop) : Prop where
  writePtr : ∀ {s log}, Keeps s log → ∀ w env, Succeeds s w env →
    (B.writePtr s w env).2 = .done ∧ Keeps (B.writePtr s w env).1 (log ++ [(w.path, w.contents)])
  beginBulkWrites : ∀ {s log}, Keeps s log → ∀ env, Keeps (B.beginBulkWrites s env) log
  endBulkWrites : ∀ {s log}, Keeps s log → ∀ env, Keeps (B.endBulkWrites s env) log
  read : ∀ {s log}, Keeps s log → ∀ path env,
    (B.read s path env).2 = .array (lastWrite log path) ∧ Keeps (B.read s path env).1 log

namespace Gtar

/-! ## The latest write to a record -/

/-- The most recent write whose path parses to the record. -/
def latest (log : Store) (r : Record) : Option (Bytes × Bytes) :=
  lastWrite (log.map fun e => (Record.ofPath e.1, e)) r

/-- The path of a record as the source parses and prints it. -/
def Plain (path : Bytes) : Prop := path.head? ≠ some slash ∧ Record.SegmentsFit path

variable {log : Store} {path contents : Bytes} {r : Record}

theorem latest_concat (log : Store) (e : Bytes × Bytes) (r : Record) :
    latest (log ++ [e]) r = if r = Record.ofPath e.1 then some e else latest log r := by
  rw [latest, List.map_append, List.map_singleton, lastWrite_concat, latest]

/-- A plain path is printed as it is. -/
theorem Plain.getPath (h : Plain path) : (Record.ofPath path).getPath = path := by
  rw [(Record.getPath_ofPath_eq_iff path).mpr ((Record.ofPath_eq_decode_iff path).mpr h.2)]
  exact dropWhile_of_head?_ne h.1

/-- No other path is. -/
theorem plain_iff : Plain path ↔ (Record.ofPath path).getPath = path := by
  refine ⟨Plain.getPath, fun h => ?_⟩
  have hstrip : path.dropWhile (· == slash) = path :=
    calc path.dropWhile (· == slash) = (Record.decode path).getPath :=
          (Record.getPath_decode path).symm
      _ = (Record.decode (Record.ofPath path).getPath).getPath := by rw [h]
      _ = (Record.ofPath path).getPath := by rw [Record.decode_getPath (Record.ofPath_canonical path)]
      _ = path := h
  constructor
  · intro hhead
    obtain ⟨rest, rfl⟩ := List.head?_eq_some_iff.mp hhead
    have hshort := List.length_dropWhile_le (· == slash) rest
    rw [List.dropWhile_cons_of_pos (by simp)] at hstrip
    rw [hstrip, List.length_cons] at hshort
    omega
  · rw [← Record.ofPath_eq_decode_iff, ← Record.getPath_ofPath_eq_iff, hstrip]
    exact h

/-- The record of the latest write is the one that was looked for. -/
theorem ofPath_of_latest (h : latest log r = some (path, contents)) : Record.ofPath path = r := by
  obtain ⟨e, -, heq⟩ := List.mem_map.mp (mem_of_lastWrite_eq_some h)
  obtain ⟨hrecord, he⟩ := Prod.mk.inj heq
  rw [← hrecord, he]

/-- The latest write to a record is the last one to its path. -/
theorem lastWrite_of_latest (h : latest log r = some (path, contents)) :
    lastWrite log path = some contents := by
  have hrecord := ofPath_of_latest h
  induction log using List.reverseRecOn with
  | nil => cases h
  | append_singleton log e ih =>
    rw [latest_concat] at h
    rw [lastWrite_concat]
    by_cases hlast : r = Record.ofPath e.1
    · rw [if_pos hlast] at h
      obtain rfl := Option.some.inj h
      rw [if_pos rfl]
    · -- A write to another record has another path.
      rw [if_neg hlast] at h
      rw [if_neg fun heq => hlast (by rw [← heq, hrecord])]
      exact ih h

/-- A path that was written has a latest write to its record. -/
theorem exists_latest (h : path ∈ log.map Prod.fst) :
    ∃ e, latest log (Record.ofPath path) = some e := by
  apply exists_lastWrite
  obtain ⟨e, he, rfl⟩ := List.mem_map.mp h
  rw [List.map_map]
  exact List.mem_map.mpr ⟨e, he, rfl⟩

/-! ## Runs -/

/-- The call is neither `close` nor a write that is not successful. -/
def Successful (Succeeds : σ → Write → ε → Prop) (g : Gtar σ) (c : GtarOp × ε) : Prop :=
  match c.1 with
  | .write _ path contents mode immediate =>
    ∀ s, g.archive = some s → Succeeds s ⟨path, contents, mode, immediate⟩ c.2
  | .close => False
  | _ => True

/-- The archive is open, keeps the log, and lists the paths. -/
structure Serves (Keeps : σ → Store → Prop) (g : Gtar σ) (paths : List Bytes) (log : Store) :
    Prop where
  lists : Lists g paths
  keeps : ∃ s, g.archive = some s ∧ Keeps s log

variable {B : Backend σ ε} {Keeps : σ → Store → Prop} {Succeeds : σ → Write → ε → Prop}
  {g : Gtar σ} {paths : List Bytes}

/-- One call. -/
theorem Serves.step (hB : B.Exact Keeps Succeeds) (h : Serves Keeps g paths log)
    {c : GtarOp × ε} (hc : Successful Succeeds g c) :
    Serves Keeps (Gtar.step B g c).1 (paths ++ (written? B g c).toList.map Prod.fst)
      (log ++ (written? B g c).toList) := by
  refine ⟨h.lists.step B c, ?_⟩
  obtain ⟨s, harchive, hkeeps⟩ := h.keeps
  obtain ⟨op, env⟩ := c
  cases op with
  | close => exact hc.elim
  | beginBulkWrites =>
    simp only [Gtar.step, Gtar.beginBulkWrites, harchive, written?, Option.toList_none, List.append_nil]
    exact ⟨_, rfl, hB.beginBulkWrites hkeeps env⟩
  | endBulkWrites =>
    simp only [Gtar.step, Gtar.endBulkWrites, harchive, written?, Option.toList_none, List.append_nil]
    exact ⟨_, rfl, hB.endBulkWrites hkeeps env⟩
  | readBytes path =>
    simp only [Gtar.step, Gtar.readBytes, harchive, written?, Option.toList_none, List.append_nil]
    exact ⟨_, rfl, (hB.read hkeeps path env).2⟩
  | write kind path contents mode immediate =>
    obtain ⟨function, hstep⟩ := step_write B g kind path contents mode immediate env
    obtain ⟨hdone, hnext⟩ :=
      hB.writePtr hkeeps ⟨path, contents, mode, immediate⟩ env (hc s harchive)
    simp only [written?, hstep, Gtar.write, harchive, hdone, if_true, Option.toList_some]
    exact ⟨_, rfl, hnext⟩

/-- A run. -/
theorem Serves.run (hB : B.Exact Keeps Succeeds) (calls : List (GtarOp × ε)) :
    ∀ {g : Gtar σ} {paths : List Bytes} {log : Store}, Serves Keeps g paths log →
      Along (Gtar.step B) (Successful Succeeds) g calls →
        Serves Keeps (exec (Gtar.step B) g calls) (paths ++ (written B g calls).map Prod.fst)
          (log ++ written B g calls) := by
  induction calls with
  | nil =>
    intro g paths log h _
    rw [written, List.map_nil, List.append_nil, List.append_nil]
    exact h
  | cons c calls ih =>
    intro g paths log h hcalls
    have hrest := ih (h.step hB hcalls.1) hcalls.2
    rw [List.append_assoc, List.append_assoc, ← List.map_append] at hrest
    exact hrest

/-! ## Reading a record -/

/-- `getRecord` reads the path of a pair. -/
theorem recordPath_eq {r : Record} (hr : r.index = []) (index : Bytes) :
    recordPath r index = pairPath (r, index) := by
  unfold recordPath pairPath
  split
  · rfl
  · next hnil =>
    have hindex : index = r.index := by rw [hr]; exact not_not.mp hnil
    rw [hindex]
    rfl

/-- The constructor keeps the archive. -/
theorem archive_ofArchive (B : Backend σ ε) (archive : σ) :
    (ofArchive B archive).archive = some archive := by
  unfold ofArchive
  generalize List.range (B.size archive) = indices
  induction indices using List.reverseRecOn with
  | nil => rfl
  | append_singleton indices index ih =>
    rw [List.foldl_append]
    exact ih

/-- A read of every catalogued record, as `getRecord` makes it, gives the contents of the most recent
write to it. -/
def ReadsLatest (B : Backend σ ε) (g : Gtar σ) (log : Store) : Prop :=
  ∀ r ∈ g.getRecordTypes, ∀ i ∈ g.queryFrames r, ∃ e, latest log (r.setIndex i) = some e ∧
    ∀ env, (g.readBytes B (recordPath r i) env).2 = .array (some e.2)

/-- The most recent write to the record of each of the paths was made under a path without leading
separators whose segments fit. -/
def LatestPlain (log : Store) (paths : List Bytes) : Prop :=
  ∀ p ∈ paths, ∀ e, latest log (Record.ofPath p) = some e → Plain e.1

/-- A read of a record looks for its path, so it finds the last write under this one. -/
theorem Serves.readsLatest_iff [Nonempty ε] (hB : B.Exact Keeps Succeeds)
    (h : Serves Keeps g paths log) (hpaths : ∀ p ∈ paths, p ∈ log.map Prod.fst) :
    ReadsLatest B g log ↔ ∀ p ∈ paths, ∀ e, latest log (Record.ofPath p) = some e →
      lastWrite log (Record.ofPath p).getPath = some e.2 := by
  obtain ⟨hlists, s, harchive, hkeeps⟩ := h
  have hread (path : Bytes) (env : ε) :
      (g.readBytes B path env).2 = .array (lastWrite log path) := by
    simp only [readBytes, harchive]
    exact (hB.read hkeeps path env).1
  constructor
  · -- A path in the catalogue is read through the printed path of its record.
    intro hall p hp e hlatest
    obtain ⟨htype, hframe⟩ := (hlists.mem_pairs _).mpr ⟨p, hp, rfl⟩
    obtain ⟨e', he', hreads⟩ := hall _ htype _ hframe
    rw [setIndex_withNullifiedIndex, hlatest] at he'
    obtain rfl := Option.some.inj he'
    have hcontents := hreads (Classical.arbitrary ε)
    rw [hread, recordPath_eq rfl, pairPath, setIndex_withNullifiedIndex, Answer.array.injEq] at hcontents
    exact hcontents
  · intro hall r hr i hi
    obtain ⟨p, hp, hpair⟩ := (hlists.mem_pairs (r, i)).mp ⟨hr, hi⟩
    obtain ⟨rfl, rfl⟩ := Prod.mk.inj hpair
    obtain ⟨e, hlatest⟩ := exists_latest (hpaths p hp)
    rw [setIndex_withNullifiedIndex]
    refine ⟨e, hlatest, fun env => ?_⟩
    rw [hread, recordPath_eq rfl, pairPath, setIndex_withNullifiedIndex, hall p hp e hlatest]

/-- After every run of successful calls, reading a catalogued record gives the contents of the most
recent write to it if for each record that write was made under a plain path; and only if, as far as
the contents tell the writes apart. -/
theorem catalogued_records_read_iff [Nonempty ε] (hB : B.Exact Keeps Succeeds) {archive : σ}
    {kept : Store} (hopen : Keeps archive kept) {names : List Bytes} (hnames : Names B archive names)
    (hkept : ∀ p ∈ names, p ∈ kept.map Prod.fst) (calls : List (GtarOp × ε))
    (hcalls : Along (step B) (Successful Succeeds) (ofArchive B archive) calls) :
    let g := exec (step B) (ofArchive B archive) calls
    let new := written B (ofArchive B archive) calls
    let log := kept ++ new
    let paths := openedNames names ++ new.map Prod.fst
    (LatestPlain log paths → ReadsLatest B g log) ∧
      ((log.map Prod.snd).Nodup → ReadsLatest B g log → LatestPlain log paths) := by
  intro g new log paths
  have hserves : Serves Keeps g paths log :=
    Serves.run hB calls ⟨lists_ofArchive hnames, archive, archive_ofArchive B archive, hopen⟩ hcalls
  have hpaths : ∀ p ∈ paths, p ∈ log.map Prod.fst := by
    intro p hp
    rw [List.map_append]
    rcases List.mem_append.mp hp with hp | hp
    · exact List.mem_append_left _ (hkept p (List.mem_of_mem_take hp))
    · exact List.mem_append_right _ hp
  rw [hserves.readsLatest_iff hB hpaths]
  constructor
  · -- The latest path is printed as it was written.
    intro hplain p hp e hlatest
    rw [← ofPath_of_latest hlatest, (hplain p hp e hlatest).getPath]
    exact lastWrite_of_latest hlatest
  · -- The write that is found is the latest one, so that one has the printed path.
    intro hdistinct hall p hp e hlatest
    have hfound := mem_of_lastWrite_eq_some (hall p hp e hlatest)
    have hwrite : e ∈ log := mem_of_lastWrite_eq_some (lastWrite_of_latest hlatest)
    have hsame := List.inj_on_of_nodup_map hdistinct hfound hwrite rfl
    rw [plain_iff, ofPath_of_latest hlatest]
    exact congrArg Prod.fst hsame

end Gtar

/-! ## A tar file -/

/-- The tar backend. -/
def tarBackend : Backend TarArchive TarEnv where
  writePtr a w env := a.writePtr w env
  beginBulkWrites a _ := a
  endBulkWrites a _ := { a with file := a.file.flush }
  read a path env := TarArchive.step a (.read path, env)
  size := TarArchive.size
  getItemName a index := (a.getItemName index).getD []

namespace TarArchive

/-- An archive that is open for writing on entries with the contents `log`. -/
def Keeps (a : TarArchive) (log : Store) : Prop :=
  ∃ n es, Session n a es ∧ contents es = log ∧ (image es).length < maxOffset

/-- A write whose path is not refused and whose record fits in the file. -/
def Succeeds (a : TarArchive) (w : Write) (env : TarEnv) : Prop :=
  refuses w.path = none ∧ a.maxPosition + (recordOf w env).length < maxOffset

/-- A tar file keeps contents under the exact path. -/
theorem tarBackend_exact : tarBackend.Exact Keeps Succeeds where
  writePtr := by
    rintro a log ⟨n, es, hsession, rfl, -⟩ w env ⟨hrefuses, hfit⟩
    have hlayout := layoutStep_accepted es env hrefuses
    have hmax : a.maxPosition = (image es).length := by
      obtain ⟨-, tail, -, hholds⟩ := hsession
      exact hholds.maxPosition
    have hlength : (image (es ++ [recordOf w env])).length < maxOffset := by
      rw [image_append, image_singleton, List.length_append, Entry.length_bytes]
      omega
    obtain ⟨hnext, hanswer⟩ := hsession.step (.writePtr w, env) (by rw [hlayout]; exact hlength)
    rw [hlayout] at hnext hanswer
    refine ⟨hanswer, n, _, hnext, ?_, hlength⟩
    simp only [contents, List.map_append, List.map_singleton]
    rfl
  beginBulkWrites h _ := h
  endBulkWrites h _ := h
  read := by
    rintro a log ⟨n, es, hsession, rfl, hlength⟩ path env
    have hlayout := layoutStep_read es path env
    obtain ⟨hnext, hanswer⟩ := hsession.step (.read path, env) (by rw [hlayout]; exact hlength)
    rw [hlayout] at hnext hanswer
    exact ⟨hanswer, n, es, hnext, rfl, hlength⟩

/-- A new tar file keeps nothing. -/
theorem keeps_ofFile_write (filename : Bytes) (disk : Option Bytes) {a : TarArchive} {fuel : ℕ}
    (hfuel : 2 ≤ fuel) (h : ofFile fuel filename .write disk = some (.ok a)) : Keeps a [] ∧
      Gtar.Names tarBackend a [] := by
  obtain ⟨b, hfile, hsession⟩ := ofFile_write filename disk
  have hsame : a = b := by
    have heq := h.symm.trans (hfile fuel hfuel)
    exact Except.ok.inj (Option.some.inj heq)
  rw [hsame]
  have hnames : b.fileNames = [] := hsession.bytes.2.1
  refine ⟨⟨0, [], hsession, rfl, by decide⟩, ?_, fun i hi => absurd hi (Nat.not_lt_zero i)⟩
  show b.fileNames.length % uintBound = _
  rw [hnames]
  rfl

end TarArchive

namespace Gtar

/-- A record that is written under two paths, the plain one last. -/
theorem catalogued_records_read_tar :
    ∃ a, TarArchive.ofFile 2 (lit "a.tar") .write none = some (.ok a) ∧
      let g := exec (step tarBackend) (ofArchive tarBackend a)
        [(.write .ptr (lit "/frames/1/b") [1] .noCompress false, { now := 0 }),
          (.write .string (lit "frames/1/b") [2] .noCompress true, { now := 0 })]
      ∀ r ∈ g.getRecordTypes, ∀ i ∈ g.queryFrames r, ∀ env,
        (g.readBytes tarBackend (recordPath r i) env).2 = .array (some [2]) := by
  refine ⟨_, rfl, fun r hr i hi env => ?_⟩
  obtain ⟨hopen, hnames⟩ := TarArchive.keeps_ofFile_write (lit "a.tar") none (le_refl 2) rfl
  have hiff := @catalogued_records_read_iff _ _ _ _ _ ⟨{ now := 0 }⟩ TarArchive.tarBackend_exact _ _
    hopen _ hnames nofun
    [(.write .ptr (lit "/frames/1/b") [1] .noCompress false, { now := 0 }),
      (.write .string (lit "frames/1/b") [2] .noCompress true, { now := 0 })] (by
    refine ⟨?_, ?_, trivial⟩
    · rintro s ⟨⟩
      exact ⟨by decide, by decide +kernel⟩
    · rintro s ⟨⟩
      exact ⟨by decide, by decide +kernel⟩)
  have hlists := (lists_ofArchive hnames).run tarBackend
    [(.write .ptr (lit "/frames/1/b") [1] .noCompress false, { now := 0 }),
      (.write .string (lit "frames/1/b") [2] .noCompress true, { now := 0 })]
  have hlatest : ∀ p ∈ [lit "/frames/1/b", lit "frames/1/b"],
      latest [(lit "/frames/1/b", [1]), (lit "frames/1/b", [2])] (Record.ofPath p) =
        some (lit "frames/1/b", [2]) := by decide
  -- What was written is known, so the run itself is not looked at any more.
  generalize hnew : written _ _ _ = new at hiff hlists
  have hwritten : new = [(lit "/frames/1/b", [1]), (lit "frames/1/b", [2])] := by
    rw [← hnew]
    decide +kernel
  rw [hwritten] at hiff hlists
  obtain ⟨p, hp, hpair⟩ := (hlists.mem_pairs (r, i)).mp ⟨hr, hi⟩
  obtain ⟨rfl, rfl⟩ := Prod.mk.inj hpair
  have hreads := hiff.1 fun p hp e h => by
    rw [List.nil_append, hlatest p hp] at h
    obtain rfl := Option.some.inj h
    exact ⟨by decide, Record.segmentsFit_of_length_lt (by decide)⟩
  obtain ⟨e, he, hread⟩ := hreads _ hr _ hi
  rw [setIndex_withNullifiedIndex, List.nil_append, hlatest p hp] at he
  obtain rfl := Option.some.inj he
  exact hread env

/-- After a write to `/a` the catalogue has the record `a`, whose path is not found. -/
theorem catalogued_records_read_counterexample :
    ∃ a, TarArchive.ofFile 2 (lit "a.tar") .write none = some (.ok a) ∧
      let g := exec (step tarBackend) (ofArchive tarBackend a)
        [(.write .ptr (lit "/a") [120] .noCompress true, { now := 0 })]
      let r : Record := { name := lit "a" }
      g.getRecordTypes = [r] ∧ g.queryFrames r = [[]] ∧
        latest [(lit "/a", [120])] r = some (lit "/a", [120]) ∧
        (g.readBytes tarBackend (recordPath r []) { now := 0 }).2 = .array none := by
  refine ⟨_, rfl, ?_⟩
  decide +kernel

end Gtar

end Libgetar
