import Libgetar.Python.Output

/-!
# Concatenating archives

`main` of `src/gtar/cat.py`, which `gtar.copy` and `gtar.fix` call. The catalogue of every input is
read into a dictionary from paths to inputs, in which a later input replaces an earlier one; the
paths are grouped by their input; and each group is transferred, sorted, to a new file, which is
moved to the output.

The formats of the files come from their names, and are behind a parameter (`Host`), for which
`Platform.host` has the formats that the constructor of `GTAR` chooses. So the new file may refuse a
record, or may not give it back.

The records of one input are kept in a dictionary whose keys are the records themselves. Their hash is
that of their path, which `setIndex` changes while the dictionary is in use: a record is looked up
before its own index is set, so it is found (`recordsOf_eq_ok_iff`, `collectRecord_eq_ok_iff`).

`collect_eq_ok_iff` says what the first half computes, and `copyRecords_eq_none_iff` when the second
half is successful. `main_success_iff` and `main_frame` are about the whole program.
-/

namespace Libgetar

open Lib

variable {σ ε φ : Type*}

/-- What the program gets from elsewhere. -/
structure Host (σ ε φ : Type*) where
  /-- What numpy makes of other contents than a record is read as. -/
  convert : Conversion
  /-- The format of a file name. -/
  format : Bytes → FileFormat σ ε φ
  /-- What the calls for a path take from their surroundings. -/
  env : Bytes → ε

/-- The formats that the constructor of `GTAR` takes for a file name. -/
def Platform.host (p : Platform) (foreign : Foreign) (convert : Conversion)
    (env : Bytes → Surroundings) : Host Archive Surroundings ArchiveFile :=
  ⟨convert, gtarFormat p foreign, env⟩

/-- A platform, on which nothing fails. -/
def quietPlatform : Platform := ⟨Sqlite.literalLz4, 8, [], [], {}, {}⟩

/-- The surroundings of its calls. -/
def quiet : Bytes → Surroundings := fun _ => ⟨⟨0, true, fun _ => 0⟩, {}, {}⟩

theorem quiet_quiet (path : Bytes) : (quiet path).Quiet := ⟨fun _ hv => (List.not_mem_nil hv).elim, rfl⟩

/-- What the program gets there. -/
def quietHost : Host Archive Surroundings ArchiveFile :=
  quietPlatform.host (fun _ _ _ => none) (fun _ _ => .error .valueError) quiet

namespace Cat

/-- Why a part of the program does not return normally. -/
inductive Stop where
  | raises (e : PyError)
  /-- A file is opened, and this does not come to an end. -/
  | hangs

/-- `gtar.GTAR(name, mode)`. -/
def openFile (host : Host σ ε φ) (files : Files φ) (mode : OpenMode) (name : Bytes) :
    Except Stop (Gtar σ) :=
  match Gtar.ofFile (host.format name) mode (onDisk files name) with
  | some (.ok g) => .ok g
  | some (.error message) => .error (.raises (.runtimeError (message ++ lit " for file " ++ name)))
  | none => .error .hangs

/-! ## Reading the catalogues -/

/-- `queryFrames`. -/
def queryFrames (inp : Gtar σ) (target : Record) : Except PyError (List Bytes) :=
  (inp.queryFrames target).mapM unpy3str

/-- The records of an input, by what is hashed of them, with their frames. A record that is equal to
a key that is there does not replace it. -/
abbrev Recs := Dict Bytes (Record × List Bytes)

/-- `recs`. -/
def recordsOf (inp : Gtar σ) : Except PyError Recs :=
  inp.getRecordTypes.foldlM (fun recs rec' => do
    let frames ← queryFrames inp rec'
    let hashed ← unpy3str rec'.getPath
    return recs.upsert hashed fun found => ((found.map Prod.fst).getD rec', frames)) .empty

/-- The paths of one record are those of the input. -/
def collectRecord (recs : Recs) (input : Bytes) (recordFiles : Dict Bytes Bytes) (rec' : Record) :
    Except PyError (Dict Bytes Bytes) := do
  let hashed ← unpy3str rec'.getPath
  match recs.get? hashed with
  | none => .error .keyError
  | some (_, frames) =>
    frames.foldlM (fun recordFiles frame => do
      let path ← unpy3str (rec'.setIndex frame).getPath
      return recordFiles.set path input) recordFiles

/-- The paths of one input that is open. -/
def collectOpened (inpFile : Gtar σ) (input : Bytes) (recordFiles : Dict Bytes Bytes) :
    Except PyError (Dict Bytes Bytes) := do
  let recs ← recordsOf inpFile
  (recs.entries.map fun e => e.2.1).foldlM (collectRecord recs input) recordFiles

/-- The paths of one input. -/
def collectInput (host : Host σ ε φ) (files : Files φ) (recordFiles : Dict Bytes Bytes)
    (input : Bytes) : Except Stop (Dict Bytes Bytes) :=
  match openFile host files .read input with
  | .ok inpFile => (collectOpened inpFile input recordFiles).mapError .raises
  | .error e => .error e

/-- `recordFiles`. -/
def collect (host : Host σ ε φ) (files : Files φ) (inputs : List Bytes) :
    Except Stop (Dict Bytes Bytes) :=
  inputs.foldlM (collectInput host files) .empty

/-- `sourceRecords`. -/
def sourceRecords (recordFiles : Dict Bytes Bytes) : Dict Bytes (List Bytes) :=
  Dict.empty.groupAll (recordFiles.entries.map fun e => (e.2, e.1))

/-! ## Writing the output -/

/-- `sorted`. -/
def sorted (paths : List Bytes) : List Bytes := paths.insertionSort fun a b => bytesLt b a = false

/-- The paths of one input are transferred, sorted, to an archive with the backend. -/
def copySource (host : Host σ ε φ) (files : Files φ) (B : Backend σ ε) (out : Gtar σ)
    (source : Bytes × List Bytes) : Gtar σ × Option Stop :=
  match openFile host files .read source.1 with
  | .error e => (out, some e)
  | .ok inp =>
    let ((_, out), pending) :=
      attempt (transfer (host.format source.1).backend host.env host.convert B) (inp, out)
        (sorted source.2)
    (out, pending.map .raises)

/-- `with gtar.GTAR(tempName, 'w') as out`. The new file is closed, after an exception too. -/
def copyRecords (host : Host σ ε φ) (files : Files φ) (tempName : Bytes)
    (sources : List (Bytes × List Bytes)) : Files φ × Option Stop :=
  match openFile host files .write tempName with
  | .error e => (files, some e)
  | .ok out =>
    let opened := leave files tempName .empty
    let (out, pending) := attempt (copySource host opened (host.format tempName).backend) out sources
    (leave opened tempName (out.archive.elim .empty fun archive =>
      (host.format tempName).close archive (onDisk files tempName)), pending)

/-- The files after `main`, and the exception that it raises. -/
def main (host : Host σ ε φ) (fuel : ℕ) (files : Files φ) (inputs : List Bytes) (output : Bytes) :
    Option (Files φ × Option PyError) :=
  match tempNameFrom files fuel (splitext output) output with
  | none => none
  | some tempName =>
    match collect host files inputs with
    | .error .hangs => none
    | .error (.raises e) => some (files, some e)
    | .ok recordFiles =>
      match copyRecords host files tempName (sourceRecords recordFiles).entries with
      | (_, some .hangs) => none
      | (closed, some (.raises e)) => some (finish closed tempName output (some e))
      | (closed, none) => some (finish closed tempName output none)

/-! ## What is collected -/

/-- The paths of the pairs of a catalogue. -/
def catalogued (inp : Gtar σ) : List Bytes :=
  inp.getRecordTypes.flatMap fun r => (inp.queryFrames r).map fun i => Gtar.pairPath (r, i)

variable {inp : Gtar σ}

/-- A path is one of a pair. -/
theorem mem_catalogued {p : Bytes} : p ∈ catalogued inp ↔ ∃ x ∈ inp.pairs, p = Gtar.pairPath x := by
  simp only [catalogued, List.mem_flatMap, List.mem_map]
  constructor
  · rintro ⟨r, hr, i, hi, rfl⟩
    exact ⟨(r, i), ⟨hr, hi⟩, rfl⟩
  · rintro ⟨⟨r, i⟩, ⟨hr, hi⟩, rfl⟩
    exact ⟨r, hr, i, hi, rfl⟩

/-- Frames are decoded. -/
theorem queryFrames_eq_ok_iff {target : Record} {frames : List Bytes} :
    queryFrames inp target = .ok frames ↔
      (∀ i ∈ inp.queryFrames target, IsUtf8 i) ∧ frames = inp.queryFrames target := by
  have hmap : queryFrames inp target = .ok frames ↔
      (∀ i ∈ inp.queryFrames target, IsUtf8 i) ∧ frames = (inp.queryFrames target).map id :=
    mapM_eq_ok_iff fun _ _ => unpy3str_eq_ok_iff
  rw [List.map_id] at hmap
  exact hmap

/-- One more record in the dictionary of an input. -/
def addRecord (inp : Gtar σ) (recs : Recs) (r : Record) : Recs :=
  recs.upsert r.getPath fun found => ((found.map Prod.fst).getD r, inp.queryFrames r)

/-- The dictionary of an input. -/
theorem recordsOf_eq_ok_iff {recs : Recs} : recordsOf inp = .ok recs ↔
    (∀ r ∈ inp.getRecordTypes, (∀ i ∈ inp.queryFrames r, IsUtf8 i) ∧ IsUtf8 r.getPath) ∧
      recs = inp.getRecordTypes.foldl (addRecord inp) .empty := by
  refine foldlM_eq_ok_iff fun r _ recs recs' => ?_
  simp only [bind_eq_ok_iff, queryFrames_eq_ok_iff, unpy3str_eq_ok_iff]
  constructor
  · rintro ⟨frames, ⟨hframes, rfl⟩, hashed, ⟨hpath, rfl⟩, h⟩
    exact ⟨⟨hframes, hpath⟩, (Except.ok.inj h).symm⟩
  · rintro ⟨⟨hframes, hpath⟩, rfl⟩
    exact ⟨_, ⟨hframes, rfl⟩, _, ⟨hpath, rfl⟩, rfl⟩

/-- Records with different paths are all in the dictionary, in order. -/
theorem entries_foldl_addRecord (inp : Gtar σ) {types : List Record}
    (h : (types.map Record.getPath).Nodup) :
    (types.foldl (addRecord inp) .empty).entries =
      types.map fun r => (r.getPath, r, inp.queryFrames r) := by
  induction types using List.reverseRecOn with
  | nil => rfl
  | append_singleton types r ih =>
    rw [List.map_append, List.map_singleton] at h
    have hbefore := ih (List.Nodup.of_append_left h)
    have hfresh : r.getPath ∉ (types.foldl (addRecord inp) .empty).keys := by
      rw [Dict.keys, hbefore, List.map_map]
      intro hmem
      exact (List.nodup_append.mp h).2.2 _ hmem _ List.mem_cons_self rfl
    rw [List.foldl_append, List.foldl_cons, List.foldl_nil, addRecord,
      Dict.entries_upsert_of_not_mem hfresh, hbefore, List.map_append]
    rfl

/-- A record that is found under its path. -/
theorem collectRecord_eq_ok_iff {recs : Recs} {r : Record} {frames : List Bytes}
    (hfound : recs.get? r.getPath = some (r, frames)) (input : Bytes) {d d' : Dict Bytes Bytes} :
    collectRecord recs input d r = .ok d' ↔
      (IsUtf8 r.getPath ∧ ∀ i ∈ frames, IsUtf8 (Gtar.pairPath (r, i))) ∧
        d' = d.setAll (frames.map fun i => (Gtar.pairPath (r, i), input)) := by
  have hloop : frames.foldlM (fun recordFiles frame => do
        let path ← unpy3str (r.setIndex frame).getPath
        return recordFiles.set path input) d = .ok d' ↔
      (∀ i ∈ frames, IsUtf8 (Gtar.pairPath (r, i))) ∧
        d' = frames.foldl (fun d i => d.set (Gtar.pairPath (r, i)) input) d := by
    refine foldlM_eq_ok_iff fun i _ d d' => ?_
    apply unpy3str_bind_eq_ok_iff
  unfold collectRecord
  simp only [bind_eq_ok_iff, unpy3str_eq_ok_iff]
  rw [Dict.setAll, List.foldl_map, and_assoc, ← hloop]
  constructor
  · rintro ⟨hashed, ⟨hpath, rfl⟩, h⟩
    rw [hfound] at h
    exact ⟨hpath, h⟩
  · rintro ⟨hpath, h⟩
    refine ⟨_, ⟨hpath, rfl⟩, ?_⟩
    rw [hfound]
    exact h

/-- The types of a catalogue have different paths. -/
theorem nodup_typePaths {paths : List Bytes} (h : Gtar.Lists inp paths) :
    (inp.getRecordTypes.map Record.getPath).Nodup := by
  have hcanonical : ∀ r ∈ inp.getRecordTypes, r.Canonical := by
    intro r hr
    obtain ⟨q, -, rfl⟩ := (h.types r).mp hr
    exact (Record.ofPath_canonical q).withNullifiedIndex
  have hnodup : inp.getRecordTypes.Nodup :=
    (StdMap.keys_sorted inp.records).imp fun {a b} hlt heq => by
      rw [heq, StrictTotal.irrefl (r := Record.lt) b] at hlt
      cases hlt
  exact hnodup.map_on fun r hr s hs heq =>
    Record.getPath_injective (hcanonical r hr) (hcanonical s hs) heq

/-- The frames of a pair and the path of its type are UTF-8 when the path of the pair is. -/
theorem isUtf8_of_pair {paths : List Bytes} (h : Gtar.Lists inp paths) {x : Record × Bytes}
    (hx : x ∈ inp.pairs) (hpath : IsUtf8 (Gtar.pairPath x)) : IsUtf8 x.2 ∧ IsUtf8 x.1.getPath := by
  obtain ⟨q, -, rfl⟩ := (h.mem_pairs x).mp hx
  exact Record.isUtf8_of_getPath (Record.ofPath_canonical q) hpath

/-- All that is decoded for the catalogue of an input is UTF-8 when the paths of the pairs are. -/
theorem isUtf8_catalogued_iff {paths : List Bytes} (h : Gtar.Lists inp paths) :
    (∀ p ∈ catalogued inp, IsUtf8 p) ↔
      (∀ r ∈ inp.getRecordTypes, (∀ i ∈ inp.queryFrames r, IsUtf8 i) ∧ IsUtf8 r.getPath) ∧
        ∀ r ∈ inp.getRecordTypes, IsUtf8 r.getPath ∧
          ∀ i ∈ inp.queryFrames r, IsUtf8 (Gtar.pairPath (r, i)) := by
  constructor
  · intro hall
    have hpair (x : Record × Bytes) (hx : x ∈ inp.pairs) : IsUtf8 (Gtar.pairPath x) :=
      hall _ (mem_catalogued.mpr ⟨x, hx, rfl⟩)
    have htype : ∀ r ∈ inp.getRecordTypes, IsUtf8 r.getPath := by
      intro r hr
      obtain ⟨q, hq, rfl⟩ := (h.types r).mp hr
      have hx := (h.mem_pairs _).mpr ⟨q, hq, rfl⟩
      exact (isUtf8_of_pair h hx (hpair _ hx)).2
    refine ⟨fun r hr => ⟨fun i hi => ?_, htype r hr⟩, fun r hr => ⟨htype r hr, fun i hi => ?_⟩⟩
    · exact (isUtf8_of_pair h ⟨hr, hi⟩ (hpair (r, i) ⟨hr, hi⟩)).1
    · exact hpair (r, i) ⟨hr, hi⟩
  · rintro ⟨-, hall⟩ p hp
    obtain ⟨⟨r, i⟩, ⟨hr, hi⟩, rfl⟩ := mem_catalogued.mp hp
    exact (hall r hr).2 i hi

/-- The paths that an input with these contents has in its catalogue. -/
def listing (log : Store) : List Bytes := catalogued (Gtar.ofArchive mapBackend log)

/-- The catalogue of an input lists the names that fit in an `unsigned int`. -/
theorem lists_store (log : Store) :
    Gtar.Lists (Gtar.ofArchive mapBackend log) (Gtar.openedNames (log.map Prod.fst)) :=
  Gtar.lists_ofArchive (Gtar.names_storeBackend _ log)

/-- A path is in the catalogue when a listed name is parsed and printed as it. -/
theorem mem_listing {log : Store} {p : Bytes} : p ∈ listing log ↔
    ∃ q ∈ Gtar.openedNames (log.map Prod.fst), p = (Record.ofPath q).getPath := by
  rw [listing, mem_catalogued]
  constructor
  · rintro ⟨x, hx, rfl⟩
    obtain ⟨q, hq, rfl⟩ := ((lists_store log).mem_pairs x).mp hx
    exact ⟨q, hq, rfl⟩
  · rintro ⟨q, hq, rfl⟩
    exact ⟨_, ((lists_store log).mem_pairs _).mpr ⟨q, hq, rfl⟩, rfl⟩

/-- The catalogue does not depend on the backend. -/
theorem catalogued_eq_listing {B : Backend σ ε} {s : σ} {log : Store}
    (h : Gtar.Names B s (log.map Prod.fst)) : catalogued (Gtar.ofArchive B s) = listing log := by
  have hrecords := (Gtar.lists_ofArchive h).records_eq (lists_store log) fun _ => Iff.rfl
  unfold listing catalogued Gtar.getRecordTypes Gtar.queryFrames
  rw [hrecords]

/-- An input that is open sets its paths, if all are UTF-8. -/
theorem collectOpened_eq_ok_iff {g : Gtar σ} {paths : List Bytes} (hlists : Gtar.Lists g paths)
    (input : Bytes) {d d' : Dict Bytes Bytes} : collectOpened g input d = .ok d' ↔
      (∀ p ∈ catalogued g, IsUtf8 p) ∧ d' = d.setAll ((catalogued g).map fun p => (p, input)) := by
  rw [isUtf8_catalogued_iff hlists]
  -- The records of the dictionary are the types, and each is found under its path.
  have hentries := entries_foldl_addRecord g (nodup_typePaths hlists)
  generalize hrecs : g.getRecordTypes.foldl (addRecord g) .empty = recs at hentries
  have htypes : recs.entries.map (fun e => e.2.1) = g.getRecordTypes := by
    rw [hentries, List.map_map]
    exact List.map_id _
  have hfound : ∀ r ∈ g.getRecordTypes, recs.get? r.getPath = some (r, g.queryFrames r) := by
    intro r hr
    rw [Dict.get?_eq_some_iff, hentries]
    exact List.mem_map.mpr ⟨r, hr, rfl⟩
  have hloop : (recs.entries.map fun e => e.2.1).foldlM (collectRecord recs input) d = .ok d' ↔
      (∀ r ∈ g.getRecordTypes, IsUtf8 r.getPath ∧
        ∀ i ∈ g.queryFrames r, IsUtf8 (Gtar.pairPath (r, i))) ∧
      d' = g.getRecordTypes.foldl (fun d r => d.setAll
        ((g.queryFrames r).map fun i => (Gtar.pairPath (r, i), input))) d := by
    rw [htypes]
    exact foldlM_eq_ok_iff fun r hr d d' => collectRecord_eq_ok_iff (hfound r hr) input
  have hset : d.setAll ((catalogued g).map fun p => (p, input)) =
      g.getRecordTypes.foldl (fun d r => d.setAll
        ((g.queryFrames r).map fun i => (Gtar.pairPath (r, i), input))) d := by
    rw [catalogued, List.map_flatMap, Dict.setAll_flatMap]
    simp only [List.map_map]
    rfl
  rw [hset, and_assoc, ← hloop]
  unfold collectOpened
  simp only [bind_eq_ok_iff, recordsOf_eq_ok_iff, hrecs]
  constructor
  · rintro ⟨recs', ⟨hdecoded, rfl⟩, h⟩
    exact ⟨hdecoded, h⟩
  · rintro ⟨hdecoded, h⟩
    exact ⟨_, ⟨hdecoded, rfl⟩, h⟩

section

variable {host : Host σ ε φ} {files : Files φ} {inputs : List Bytes} {store : Bytes → Store}

/-- The inputs are there, and are archives with the contents that the store has for their names. -/
def Exist (host : Host σ ε φ) (files : Files φ) (inputs : List Bytes) (store : Bytes → Store) : Prop :=
  ∀ input ∈ inputs, onDisk files input ≠ .absent ∧
    Stores host.env (host.format input) (onDisk files input) (store input)

/-- An input is opened, and is read as its contents. -/
theorem openFile_of_stores {input : Bytes} {log : Store}
    (h : Stores host.env (host.format input) (onDisk files input) log) :
    ∃ inp, openFile host files .read input = .ok inp ∧
      Serves (host.format input).backend host.env inp log ∧
      catalogued inp = listing log ∧ Gtar.Lists inp (Gtar.openedNames (log.map Prod.fst)) := by
  obtain ⟨s, hopen, hnames, hreads⟩ := h
  refine ⟨Gtar.ofArchive (host.format input).backend s, ?_,
    ⟨s, Gtar.archive_ofArchive _ s, hreads⟩, catalogued_eq_listing hnames,
    Gtar.lists_ofArchive hnames⟩
  have hread : Gtar.realMode .read (onDisk files input) = .read := rfl
  unfold openFile Gtar.ofFile
  rw [hread, hopen]
  rfl

/-- An input sets its paths, if all are UTF-8. -/
theorem collectInput_eq_ok_iff {input : Bytes} {log : Store}
    (h : Stores host.env (host.format input) (onDisk files input) log) {d d' : Dict Bytes Bytes} :
    collectInput host files d input = .ok d' ↔
      (∀ p ∈ listing log, IsUtf8 p) ∧ d' = d.setAll ((listing log).map fun p => (p, input)) := by
  obtain ⟨inp, hopen, -, hlisting, hlists⟩ := openFile_of_stores h
  rw [← hlisting, ← collectOpened_eq_ok_iff hlists, collectInput, hopen]
  simp only
  cases collectOpened inp input d with
  | ok d'' =>
    exact ⟨fun heq => congrArg Except.ok (Except.ok.inj heq),
      fun heq => congrArg Except.ok (Except.ok.inj heq)⟩
  | error e => exact iff_of_false (by rintro ⟨⟩) (by rintro ⟨⟩)

/-- The dictionary from paths to inputs. -/
def sources (store : Bytes → Store) (inputs : List Bytes) : Dict Bytes Bytes :=
  Dict.empty.setAll <| inputs.flatMap fun input => (listing (store input)).map fun p => (p, input)

/-- A path has the last input whose catalogue it is in. -/
theorem get?_sources (p : Bytes) : (sources store inputs).get? p =
    inputs.reverse.find? fun input => decide (p ∈ listing (store input)) :=
  Dict.get?_setAll_flatMap _ inputs p

/-- A path is collected from one of the inputs. -/
theorem mem_of_get?_sources {p s : Bytes} (h : (sources store inputs).get? p = some s) :
    s ∈ inputs ∧ p ∈ listing (store s) := by
  rw [get?_sources] at h
  have hlisted := List.find?_some h
  exact ⟨List.mem_reverse.mp (List.mem_of_find?_eq_some h), of_decide_eq_true hlisted⟩

/-- The paths are collected, if all are UTF-8. -/
theorem collect_eq_ok_iff (hinputs : Exist host files inputs store) {d : Dict Bytes Bytes} :
    collect host files inputs = .ok d ↔
      (∀ input ∈ inputs, ∀ p ∈ listing (store input), IsUtf8 p) ∧ d = sources store inputs := by
  rw [sources, Dict.setAll_flatMap]
  exact foldlM_eq_ok_iff fun input hinput d d' => collectInput_eq_ok_iff (hinputs input hinput).2

/-! ## What is written -/

/-- What an input has under the path of a record. -/
def readFrom (store : Bytes → Store) (x : Bytes × Bytes) : Bytes :=
  (lastWrite (store x.1) (Record.ofPath x.2).getPath).getD []

/-- A path comes from an input. -/
def Comes (store : Bytes → Store) (x : Bytes × Bytes) : Prop :=
  IsUtf8 (Record.ofPath x.2).getPath ∧ Transfers (Record.ofPath x.2) (readFrom store x)

/-- What is written for a path that comes from an input. -/
def written (store : Bytes → Store) (x : Bytes × Bytes) : Bytes × Bytes :=
  ((Record.ofPath x.2).getPath, transferred (Record.ofPath x.2) (readFrom store x))

/-- The paths of a group in the order in which they are written, with their input. -/
def block (source : Bytes × List Bytes) : List (Bytes × Bytes) :=
  (sorted source.2).map (Prod.mk source.1)

/-- The paths in the order in which they are written, with their inputs. -/
def plan (recordFiles : Dict Bytes Bytes) : List (Bytes × Bytes) :=
  (sourceRecords recordFiles).entries.flatMap block

/-- The paths of a group are those that were collected from its input. -/
theorem mem_block {recordFiles : Dict Bytes Bytes} {source : Bytes × List Bytes}
    (hsource : source ∈ (sourceRecords recordFiles).entries) {x : Bytes × Bytes} (hx : x ∈ block source) :
    recordFiles.get? x.2 = some x.1 := by
  obtain ⟨s, paths⟩ := source
  obtain ⟨p, hp, rfl⟩ := List.mem_map.mp hx
  have hgroup := Dict.mem_groupAll_iff.mp ⟨paths, hsource, (List.mem_insertionSort _).mp hp⟩
  obtain ⟨e, he, heq⟩ := List.mem_map.mp hgroup
  obtain ⟨rfl, rfl⟩ := Prod.mk.inj heq
  exact Dict.get?_eq_some_iff.mpr he

/-- Every path is written for its input. -/
theorem mem_plan {recordFiles : Dict Bytes Bytes} {x : Bytes × Bytes} :
    x ∈ plan recordFiles ↔ recordFiles.get? x.2 = some x.1 := by
  constructor
  · intro h
    obtain ⟨source, hsource, hx⟩ := List.mem_flatMap.mp h
    exact mem_block hsource hx
  · intro h
    have hentry : x ∈ recordFiles.entries.map fun e => (e.2, e.1) :=
      List.mem_map.mpr ⟨(x.2, x.1), Dict.get?_eq_some_iff.mp h, rfl⟩
    obtain ⟨paths, hsource, hp⟩ := Dict.mem_groupAll_iff.mpr hentry
    exact List.mem_flatMap.mpr
      ⟨(x.1, paths), hsource, List.mem_map.mpr ⟨x.2, (List.mem_insertionSort _).mpr hp, rfl⟩⟩

/-- A group has the name of one of the inputs. -/
theorem mem_inputs_of_source {source : Bytes × List Bytes}
    (hsource : source ∈ (sourceRecords (sources store inputs)).entries) : source.1 ∈ inputs := by
  have hgroup : (source.1, source.2) ∈ ((Dict.empty : Dict Bytes (List Bytes)).groupAll
      ((sources store inputs).entries.map fun e => (e.2, e.1))).entries := hsource
  obtain ⟨p, hp⟩ := Dict.exists_mem_of_groupAll hgroup
  have hx : (source.1, p) ∈ block source :=
    List.mem_map.mpr ⟨p, (List.mem_insertionSort _).mpr hp, rfl⟩
  exact (mem_of_get?_sources (mem_block hsource hx)).1

/-- The records in the order in which they are written. -/
def writtenLog (store : Bytes → Store) (inputs : List Bytes) : Store :=
  (plan (sources store inputs)).map (written store)

/-- The input is read as its contents, and the output has this archive. -/
def Between (host : Host σ ε φ) (store : Bytes → Store) (input : Bytes) (archives : Gtar σ × Gtar σ)
    (t : σ) : Prop :=
  Serves (host.format input).backend host.env archives.1 (store input) ∧ archives.2.archive = some t

/-- One path is transferred as its record is written, if it comes from the input. -/
theorem transfer_step (B : Backend σ ε) {s : Bytes} {archives : Gtar σ × Gtar σ}
    {t : σ} (h : Between host store s archives t) (p : Bytes) :
    let result := transfer (host.format s).backend host.env host.convert B archives p
    let recorded := record B host.env t (written store (s, p))
    (result.2 = none ↔ Comes store (s, p) ∧ recorded.2 = none) ∧
      (result.2 = none → Between host store s result.1 recorded.1) := by
  obtain ⟨hinp, hwrites, hraises⟩ := transfer_spec host.convert B h.1 h.2 p
  by_cases hcomes : Comes store (s, p)
  · obtain ⟨harchive, hnone⟩ := hwrites hcomes
    exact ⟨hnone.trans (and_iff_right hcomes).symm, fun _ => ⟨hinp, harchive⟩⟩
  · have hne := hraises hcomes
    exact ⟨iff_of_false hne fun h => hcomes h.1, fun h => absurd h hne⟩

/-- A group is copied to the end, if its input is opened. -/
theorem copySource_ne_hangs (B : Backend σ ε) (out : Gtar σ) {source : Bytes × List Bytes}
    (hopen : openFile host files .read source.1 ≠ .error .hangs) :
    (copySource host files B out source).2 ≠ some .hangs := by
  unfold copySource
  cases h : openFile host files .read source.1 with
  | error e =>
    rw [h] at hopen
    exact fun hhangs => hopen (congrArg Except.error (Option.some.inj hhangs))
  | ok inp =>
    intro hhangs
    obtain ⟨e, -, he⟩ := Option.map_eq_some_iff.mp hhangs
    cases he

/-- A group is copied as its records are written, if every path of it comes from the input. -/
theorem copySource_spec {source : Bytes × List Bytes}
    (hinput : Stores host.env (host.format source.1) (onDisk files source.1) (store source.1))
    {B : Backend σ ε} {out : Gtar σ} {t : σ} (hout : out.archive = some t) :
    let result := copySource host files B out source
    let recorded := attempt (record B host.env) t ((block source).map (written store))
    (result.2 = none ↔ (∀ x ∈ block source, Comes store x) ∧ recorded.2 = none) ∧
      (result.2 = none → result.1.archive = some recorded.1) := by
  obtain ⟨inp, hopen, hserves, -, -⟩ := openFile_of_stores hinput
  have hstart : Between host store source.1 (inp, out) t := ⟨hserves, hout⟩
  obtain ⟨hnone, hend⟩ := attempt_entries (R := Between host store source.1)
    (fun p (_ : p ∈ sorted source.2) archives t h => transfer_step B h p) hstart
  intro result recorded
  simp only [result, recorded, copySource, hopen, block, List.map_map, List.forall_mem_map,
    Option.map_eq_none_iff]
  exact ⟨hnone, fun h => (hend h).2⟩

/-- All groups are copied as the records are written. -/
theorem copySources_spec (hinputs : Exist host files inputs store) {B : Backend σ ε} {out : Gtar σ}
    {t : σ} (hout : out.archive = some t) :
    let result := attempt (copySource host files B) out (sourceRecords (sources store inputs)).entries
    let recorded := attempt (record B host.env) t (writtenLog store inputs)
    result.2 ≠ some .hangs ∧
      (result.2 = none ↔ (∀ x ∈ plan (sources store inputs), Comes store x) ∧ recorded.2 = none) ∧
      (result.2 = none → result.1.archive = some recorded.1) := by
  have hinput : ∀ source ∈ (sourceRecords (sources store inputs)).entries,
      Stores host.env (host.format source.1) (onDisk files source.1) (store source.1) :=
    fun source hsource => (hinputs _ (mem_inputs_of_source hsource)).2
  obtain ⟨hnone, hend⟩ := attempt_blocks (R := fun (out : Gtar σ) t => out.archive = some t)
    (fun source hsource out t h => copySource_spec (B := B) (hinput source hsource) h) hout
  have hall : (∀ source ∈ (sourceRecords (sources store inputs)).entries, ∀ x ∈ block source,
      Comes store x) ↔ ∀ x ∈ plan (sources store inputs), Comes store x := by
    simp only [plan, List.mem_flatMap]
    exact ⟨fun h x ⟨source, hsource, hx⟩ => h source hsource x hx,
      fun h source hsource x hx => h x ⟨source, hsource, hx⟩⟩
  rw [← List.map_flatMap, hall] at hnone
  rw [← List.map_flatMap] at hend
  refine ⟨attempt_ne_some (fun source hsource out => copySource_ne_hangs B out ?_) out, hnone, hend⟩
  obtain ⟨inp, hopen, -⟩ := openFile_of_stores (hinput source hsource)
  rw [hopen]
  exact fun h => by cases h

/-! ## The whole program -/

/-- Only the new file is changed. -/
theorem copyRecords_agree (host : Host σ ε φ) (files : Files φ) {tempName name : Bytes}
    (hne : name ≠ tempName) (sources : List (Bytes × List Bytes)) :
    (copyRecords host files tempName sources).1.get? name = files.get? name := by
  unfold copyRecords
  split
  · rfl
  · exact (get?_leave_of_ne _ _ hne).trans (get?_leave_of_ne _ _ hne)

/-- `main` changes no file but the output, and if it raises an exception, not the output either unless
that was not there. -/
theorem main_frame {fuel : ℕ} {output : Bytes} {files' : Files φ} {raised : Option PyError}
    (h : main host fuel files inputs output = some (files', raised)) :
    (∀ name ≠ output, files'.get? name = files.get? name) ∧
      (raised ≠ none → files.get? output ≠ none → files'.get? output = files.get? output) := by
  unfold main at h
  split at h
  · cases h
  · next tempName htemp =>
    obtain ⟨hfresh, hname⟩ := tempNameFrom_spec htemp
    split at h
    · cases h
    · obtain ⟨rfl, rfl⟩ := Prod.mk.inj (Option.some.inj h)
      exact ⟨fun _ _ => rfl, fun _ _ => rfl⟩
    · next d hd =>
      have hagree (name : Bytes) (hne : name ≠ tempName) :=
        copyRecords_agree host files hne (sourceRecords d).entries
      generalize copyRecords host files tempName (sourceRecords d).entries = copied at h hagree
      obtain ⟨closed, pending⟩ := copied
      have hfinish (pending : Option PyError) (h : finish closed tempName output pending = (files', raised)) :
          (∀ name ≠ output, files'.get? name = files.get? name) ∧
            (raised ≠ none → files.get? output ≠ none → files'.get? output = files.get? output) := by
        obtain ⟨hframe, -, -, hkept⟩ := finish_spec hfresh hname hagree pending
        rw [h] at hframe hkept
        exact ⟨hframe, hkept⟩
      rcases pending with - | e | -
      · exact hfinish none (Option.some.inj h)
      · exact hfinish (some e) (Option.some.inj h)
      · cases h

/-- The inputs are there when the new file is. -/
theorem Exist.leave (h : Exist host files inputs store) {tempName : Bytes}
    (hfresh : files.get? tempName = none) (disk : OnDisk φ) :
    Exist host (leave files tempName disk) inputs store := by
  intro input hinput
  obtain ⟨hthere, hstores⟩ := h input hinput
  have hne : input ≠ tempName := by
    rintro rfl
    exact hthere (onDisk_eq_absent_iff.mpr hfresh)
  rw [onDisk_congr (get?_leave_of_ne files disk hne)]
  exact ⟨hthere, hstores⟩

/-- The catalogues of inputs that are there are read to the end. -/
theorem collect_ne_hangs (hinputs : Exist host files inputs store) :
    collect host files inputs ≠ .error .hangs := by
  unfold collect
  refine foldlM_ne_error (fun input hinput d => ?_) _
  obtain ⟨inp, hopen, -⟩ := openFile_of_stores (hinputs input hinput).2
  unfold collectInput
  rw [hopen]
  simp only
  cases collectOpened inp input d with
  | ok d' => exact fun h => by cases h
  | error e => exact fun h => by cases h

/-- The records are copied to the end, if the new file is opened. -/
theorem copyRecords_ne_hangs (hinputs : Exist host files inputs store) {tempName : Bytes}
    (hfresh : files.get? tempName = none) (hopen : (host.format tempName).ofFile .write .absent ≠ none) :
    (copyRecords host files tempName (sourceRecords (sources store inputs)).entries).2 ≠
      some .hangs := by
  have habsent : onDisk files tempName = .absent := onDisk_eq_absent_iff.mpr hfresh
  have hmode : Gtar.realMode .write (.absent : OnDisk φ) = .write := rfl
  unfold copyRecords openFile Gtar.ofFile
  simp only [habsent, hmode]
  cases hopened : (host.format tempName).ofFile .write .absent with
  | none => exact absurd hopened hopen
  | some opened =>
    cases opened with
    | error message => exact fun h => by cases h
    | ok s =>
      exact (copySources_spec (hinputs.leave hfresh .empty) (B := (host.format tempName).backend)
        (Gtar.archive_ofArchive (host.format tempName).backend s)).1

/-- `main` returns if the inputs are there and the new file is opened. -/
theorem exists_main (hinputs : Exist host files inputs store) {output tempName : Bytes} {fuel : ℕ}
    (htemp : tempNameFrom files fuel (splitext output) output = some tempName)
    (hopen : (host.format tempName).ofFile .write .absent ≠ none) :
    ∃ files' raised, main host fuel files inputs output = some (files', raised) := by
  have hcollected := collect_ne_hangs hinputs
  unfold main
  rw [htemp]
  cases hcollect : collect host files inputs with
  | error e =>
    cases e with
    | raises e => exact ⟨files, some e, rfl⟩
    | hangs => exact absurd hcollect hcollected
  | ok d =>
    obtain ⟨-, rfl⟩ := (collect_eq_ok_iff hinputs).mp hcollect
    have hcopied := copyRecords_ne_hangs hinputs (tempNameFrom_spec htemp).1 hopen
    simp only
    generalize copyRecords host files tempName _ = copied at hcopied ⊢
    obtain ⟨closed, pending⟩ := copied
    rcases pending with - | e | -
    · exact ⟨_, _, rfl⟩
    · exact ⟨_, _, rfl⟩
    · exact absurd rfl hcopied

/-- The records are copied exactly if each comes from its input, and they are written. -/
theorem copyRecords_eq_none_iff (hinputs : Exist host files inputs store) {tempName : Bytes}
    (hfresh : files.get? tempName = none) {disk : OnDisk φ} :
    let copied := copyRecords host files tempName (sourceRecords (sources store inputs)).entries
    copied.2 = none ∧ onDisk copied.1 tempName = disk ↔
      (∀ x ∈ plan (sources store inputs), Comes store x) ∧
        Written host.env (host.format tempName) (writtenLog store inputs) disk := by
  have habsent : onDisk files tempName = .absent := onDisk_eq_absent_iff.mpr hfresh
  have hmode : Gtar.realMode .write (.absent : OnDisk φ) = .write := rfl
  unfold Written copyRecords openFile Gtar.ofFile
  simp only [habsent, hmode]
  cases hopen : (host.format tempName).ofFile .write .absent with
  | none => simp
  | some opened =>
    cases opened with
    | error message => simp [Except.map]
    | ok s =>
      obtain ⟨-, hnone, hend⟩ := copySources_spec (hinputs.leave hfresh .empty)
        (B := (host.format tempName).backend) (Gtar.archive_ofArchive (host.format tempName).backend s)
      simp only [Option.map_some, Except.map, onDisk_leave, Option.some.injEq, Except.ok.injEq,
        exists_eq_left']
      rw [hnone]
      constructor
      · rintro ⟨⟨hcomes, htaken⟩, hdisk⟩
        rw [hend (hnone.mpr ⟨hcomes, htaken⟩)] at hdisk
        exact ⟨hcomes, htaken, hdisk⟩
      · rintro ⟨hcomes, htaken, hdisk⟩
        refine ⟨⟨hcomes, htaken⟩, ?_⟩
        rw [hend (hnone.mpr ⟨hcomes, htaken⟩)]
        exact hdisk

/-- `main` raises nothing exactly if all catalogued paths are UTF-8 and each comes from its input, the
records are written, and the output is not a directory that is there. Then the new file is the
output. -/
theorem main_success_iff (hinputs : Exist host files inputs store) {output tempName : Bytes} {fuel : ℕ}
    (htemp : tempNameFrom files fuel (splitext output) output = some tempName) {disk : OnDisk φ} :
    (∃ files', main host fuel files inputs output = some (files', none) ∧
        onDisk files' output = disk) ↔
      (∀ input ∈ inputs, ∀ p ∈ listing (store input), IsUtf8 p) ∧
        (∀ x ∈ plan (sources store inputs), Comes store x) ∧
        (files.get? output ≠ none → ¬[slash] <:+ output) ∧ disk ≠ .absent ∧
        Written host.env (host.format tempName) (writtenLog store inputs) disk := by
  obtain ⟨hfresh, hname⟩ := tempNameFrom_spec htemp
  unfold main
  rw [htemp]
  cases hcollect : collect host files inputs with
  | error e =>
    -- A path cannot be decoded, so nothing is written.
    refine iff_of_false ?_ fun h => ?_
    · cases e <;> simp
    · have hok := (collect_eq_ok_iff hinputs).mpr ⟨h.1, rfl⟩
      rw [hcollect] at hok
      cases hok
  | ok d =>
    obtain ⟨hutf8, rfl⟩ := (collect_eq_ok_iff hinputs).mp hcollect
    have hcopied : _ ∧ onDisk _ tempName = disk ↔ _ := copyRecords_eq_none_iff hinputs hfresh
    have hagree (name : Bytes) (hne : name ≠ tempName) :=
      copyRecords_agree host files hne (sourceRecords (sources store inputs)).entries
    rw [and_iff_right hutf8]
    simp only at hcopied ⊢
    generalize copyRecords host files tempName _ = copied at hcopied hagree ⊢
    obtain ⟨closed, pending⟩ := copied
    obtain ⟨-, hnone, hmoved, -⟩ := finish_spec hfresh hname hagree none
    rw [and_iff_right rfl] at hnone
    cases pending with
    | none =>
      -- The new file takes the place of the output.
      rw [and_iff_right rfl] at hcopied
      simp only [Option.some.injEq]
      constructor
      · rintro ⟨files', hfinish, rfl⟩
        rw [hfinish] at hnone hmoved
        obtain ⟨hthere, hdir⟩ := hnone.mp rfl
        have hsame : onDisk files' output = onDisk closed tempName := by
          unfold onDisk
          rw [hmoved rfl]
        obtain ⟨hcomes, hwritten⟩ := hcopied.mp hsame.symm
        refine ⟨hcomes, hdir, fun habsent => hthere ?_, hwritten⟩
        rw [hsame] at habsent
        exact onDisk_eq_absent_iff.mp habsent
      · rintro ⟨hcomes, hdir, hthere, hwritten⟩
        obtain rfl := hcopied.mpr ⟨hcomes, hwritten⟩
        have hended := hnone.mpr ⟨fun h => hthere (onDisk_eq_absent_iff.mpr h), hdir⟩
        refine ⟨(finish closed tempName output none).1, Prod.ext rfl hended, ?_⟩
        unfold onDisk
        rw [hmoved hended]
    | some stop =>
      -- Some record is not copied.
      refine iff_of_false ?_ fun h => by cases (hcopied.mpr ⟨h.1, h.2.2.2⟩).1
      cases stop with
      | raises e =>
        rintro ⟨files', hfinish, -⟩
        obtain ⟨-, hraised, -⟩ := finish_spec hfresh hname hagree (some e)
        have hended := congrArg Prod.snd (Option.some.inj hfinish)
        cases (hraised.mp hended).1
      | hangs => simp

end

end Cat

end Libgetar
