import Libgetar.Catalogue.Formats
import Libgetar.Lib.Attempt

/-!
# Files of any format

An archive behind the pointer that `GTAR` has is of one of the four classes (`Archive`), and a file is
what one of them has left (`ArchiveFile`). `gtarFormat` opens a file name as the constructor of `GTAR`
does. What a class makes of a file that another one has left is a parameter.

A file stores a log if it is opened, lists the paths of the log, and every read gives what the log has
(`Stores`). A format restores a log if a new file of it takes the records one after the other, and
then stores them (`Restores`). That a format persists is enough for that, for the logs that fit
(`Written.of_persists`), and so it is for the formats behind the constructor (`gtarFormat_written`).
-/

namespace Libgetar

open Lib Sqlite

variable {σ ε φ σ' ε' φ' : Type*}

/-! ## The classes behind one pointer -/

/-- An object of one of the classes that implement `Archive`. -/
inductive Archive where
  | tar (a : TarArchive)
  | dir (a : DirArchive × FileTree)
  | sqlite (a : SqliteArchive)
  | zip (a : ZipArchive)

/-- A file, as one of the classes has left it. -/
inductive ArchiveFile where
  | tar (bytes : Bytes)
  | dir (tree : FileTree)
  | sqlite (db : Db)
  | zip (f : ZipFile)

/-- The calls of the class of the object. -/
def archiveBackend (p : Platform) : Backend Archive Surroundings where
  writePtr a w env :=
    match a with
    | .tar a => (tarBackend.writePtr a w env.tar).map .tar id
    | .dir a => ((dirBackend p.dir).writePtr a w env).map .dir id
    | .sqlite a => ((sqliteBackend p.lz4).writePtr a w env.sqlite).map .sqlite id
    | .zip a => (zipBackend.writePtr a w env.zip).map .zip id
  beginBulkWrites a env :=
    match a with
    | .tar a => .tar (tarBackend.beginBulkWrites a env.tar)
    | .dir a => .dir ((dirBackend p.dir).beginBulkWrites a env)
    | .sqlite a => .sqlite ((sqliteBackend p.lz4).beginBulkWrites a env.sqlite)
    | .zip a => .zip (zipBackend.beginBulkWrites a env.zip)
  endBulkWrites a env :=
    match a with
    | .tar a => .tar (tarBackend.endBulkWrites a env.tar)
    | .dir a => .dir ((dirBackend p.dir).endBulkWrites a env)
    | .sqlite a => .sqlite ((sqliteBackend p.lz4).endBulkWrites a env.sqlite)
    | .zip a => .zip (zipBackend.endBulkWrites a env.zip)
  read a path env :=
    match a with
    | .tar a => (tarBackend.read a path env.tar).map .tar id
    | .dir a => ((dirBackend p.dir).read a path env).map .dir id
    | .sqlite a => ((sqliteBackend p.lz4).read a path env.sqlite).map .sqlite id
    | .zip a => (zipBackend.read a path env.zip).map .zip id
  size a :=
    match a with
    | .tar a => tarBackend.size a
    | .dir a => (dirBackend (ε := Surroundings) p.dir).size a
    | .sqlite a => (sqliteBackend p.lz4).size a
    | .zip a => zipBackend.size a
  getItemName a index :=
    match a with
    | .tar a => tarBackend.getItemName a index
    | .dir a => (dirBackend (ε := Surroundings) p.dir).getItemName a index
    | .sqlite a => (sqliteBackend p.lz4).getItemName a index
    | .zip a => zipBackend.getItemName a index

/-- What a class makes of a file that another one has left. -/
abbrev Foreign := ArchiveFormat → OpenMode → ArchiveFile → Option (Except Bytes Archive)

/-- The constructor of the class of a format, on its own files, on empty ones and on none. -/
def FileFormat.opens (F : FileFormat σ ε φ) (object : σ → Archive) (own : ArchiveFile → Option φ)
    (foreign : OpenMode → ArchiveFile → Option (Except Bytes Archive)) (mode : OpenMode)
    (disk : OnDisk ArchiveFile) : Option (Except Bytes Archive) :=
  match disk with
  | .absent => (F.ofFile mode .absent).map fun opened => opened.map object
  | .empty => (F.ofFile mode .empty).map fun opened => opened.map object
  | .file f =>
    match own f with
    | some f => (F.ofFile mode (.file f)).map fun opened => opened.map object
    | none => foreign mode f

/-- What a class leaves. -/
def OnDisk.map (file : φ → φ') : OnDisk φ → OnDisk φ'
  | .absent => .absent
  | .empty => .empty
  | .file f => .file (file f)

/-- The format that the constructor of `GTAR` takes for a file name. -/
def gtarFormat (p : Platform) (foreign : Foreign) (filename : Bytes) :
    FileFormat Archive Surroundings ArchiveFile where
  backend := archiveBackend p
  ofFile :=
    match archiveFormat filename with
    | .tar => (tarFormat p.fuel filename).opens .tar
      (fun | .tar bytes => some bytes | _ => none) (foreign .tar)
    | .dir => (dirFormat (ε := Surroundings) p.dir p.fuel p.fileTree filename).opens .dir
      (fun | .dir tree => some tree | _ => none) (foreign .dir)
    | .sqlite => (sqliteFormat p.lz4 filename p.errmsg).opens .sqlite
      (fun | .sqlite db => some db | _ => none) (foreign .sqlite)
    | .zip => (zipFormat filename p.errorString).opens .zip
      (fun | .zip f => some f | _ => none) (foreign .zip)
  close a disk :=
    match a with
    | .tar a => ((tarFormat p.fuel filename).close a .absent).map .tar
    | .dir a => ((dirFormat (ε := Surroundings) p.dir p.fuel p.fileTree filename).close a .absent).map .dir
    | .sqlite a => ((sqliteFormat p.lz4 filename p.errmsg).close a .absent).map .sqlite
    | .zip a =>
      -- A zip file that is read is left as it is.
      if a.mode = .read then disk
      else ((zipFormat filename p.errorString).close a .absent).map .zip

/-! ## What a file stores -/

/-- The message that a call has thrown. -/
def Answer.message? : Answer → Option Bytes
  | .threw message => some message
  | _ => none

section

variable (B : Backend σ ε) (env : Bytes → ε)

/-- One read. What it takes from its surroundings depends on the path. -/
def readStep (s : σ) (path : Bytes) : σ × Answer := B.read s path (env path)

/-- Whatever is read one after the other, the archive gives what the log has. -/
def ReadsAs (s : σ) (log : Store) : Prop :=
  ∀ paths, outputs (readStep B env) s paths = paths.map fun path => .array (lastWrite log path)

/-- A file is an archive that lists the paths of the log and is read as it. -/
def Stores (F : FileFormat σ ε φ) (disk : OnDisk φ) (log : Store) : Prop :=
  ∃ s, F.ofFile .read disk = some (.ok s) ∧ Gtar.Names F.backend s (log.map Prod.fst) ∧
    ReadsAs F.backend env s log

/-- A record is written. -/
def record (s : σ) (e : Bytes × Bytes) : σ × Option Bytes :=
  ((B.writePtr s ⟨e.1, e.2, .fastCompress, true⟩ (env e.1)).1,
    (B.writePtr s ⟨e.1, e.2, .fastCompress, true⟩ (env e.1)).2.message?)

/-- A new file is opened, takes the records of the log, and is left. -/
def Written (F : FileFormat σ ε φ) (log : Store) (disk : OnDisk φ) : Prop :=
  ∃ s, F.ofFile .write .absent = some (.ok s) ∧ (attempt (record F.backend env) s log).2 = none ∧
    F.close (attempt (record F.backend env) s log).1 .absent = disk

/-- A new file of one format takes the records of the log, and what is left of it, opened as another
format, stores them. -/
def Restores (F F' : FileFormat σ ε φ) (log : Store) : Prop :=
  ∃ disk log', Written env F log disk ∧ disk ≠ .absent ∧ Stores env F' disk log' ∧
    ∀ path, lastWrite log' path = lastWrite log path

end

section

variable {B : Backend σ ε} {env : Bytes → ε} {F : FileFormat σ ε φ} {s : σ} {log log' : Store}

/-- The next read. -/
theorem ReadsAs.read (h : ReadsAs B env s log) (path : Bytes) :
    (B.read s path (env path)).2 = .array (lastWrite log path) ∧
      ReadsAs B env (B.read s path (env path)).1 log := by
  have hall (paths : List Bytes) := List.cons.inj (h (path :: paths))
  exact ⟨(hall []).1, fun paths => (hall paths).2⟩

/-- What keeps a log is read as it. -/
theorem ReadsAs.of_keeps (Keeps : σ → Prop) (hread : ∀ {s} path, Keeps s →
    (B.read s path (env path)).2 = .array (lastWrite log path) ∧ Keeps (B.read s path (env path)).1)
    (hs : Keeps s) : ReadsAs B env s log := by
  intro paths
  induction paths generalizing s with
  | nil => rfl
  | cons path paths ih =>
    obtain ⟨hanswer, hnext⟩ := hread path hs
    rw [outputs_cons, List.map_cons]
    exact congrArg₂ _ hanswer (ih hnext)

/-- What is left of a new file depends on the log only. -/
theorem Written.disk_eq {disk disk' : OnDisk φ} (h : Written env F log disk)
    (h' : Written env F log disk') : disk = disk' := by
  obtain ⟨s, hopen, -, rfl⟩ := h
  obtain ⟨s', hopen', -, rfl⟩ := h'
  obtain rfl : s = s' := Except.ok.inj (Option.some.inj (hopen.symm.trans hopen'))
  rfl

/-- A file stores one map. -/
theorem Stores.lastWrite_eq {disk : OnDisk φ} (h : Stores env F disk log) (h' : Stores env F disk log')
    (path : Bytes) : lastWrite log path = lastWrite log' path := by
  obtain ⟨s, hopen, -, hreads⟩ := h
  obtain ⟨s', hopen', -, hreads'⟩ := h'
  obtain rfl : s = s' := Except.ok.inj (Option.some.inj (hopen.symm.trans hopen'))
  exact Answer.array.inj ((hreads.read path).1.symm.trans (hreads'.read path).1)

end

/-! ## Formats that persist -/

/-- A format does on the objects, files and surroundings of another one what that does. -/
structure Embeds (F : FileFormat σ ε φ) (G : FileFormat σ' ε' φ') (object : σ → σ') (file : φ → φ')
    (surroundings : ε' → ε) : Prop where
  create : G.ofFile .write .absent = (F.ofFile .write .absent).map fun opened => opened.map object
  reopen : ∀ f, G.ofFile .read (.file (file f)) =
    (F.ofFile .read (.file f)).map fun opened => opened.map object
  writePtr : ∀ s w env, G.backend.writePtr (object s) w env =
    (F.backend.writePtr s w (surroundings env)).map object id
  read : ∀ s path env, G.backend.read (object s) path env =
    (F.backend.read s path (surroundings env)).map object id
  size : ∀ s, G.backend.size (object s) = F.backend.size s
  getItemName : ∀ s i, G.backend.getItemName (object s) i = F.backend.getItemName s i
  close : ∀ s f, F.close s .absent = .file f → G.close (object s) .absent = .file (file f)

section

variable {F F' : FileFormat σ ε φ} {G G' : FileFormat σ' ε' φ'} {object : σ → σ'} {file : φ → φ'}
  {surroundings : ε' → ε} {Quiet : ε → Prop} {Fits : Store → Prop}
  {Keeps Keeps' : OnDisk φ → OpenMode → σ → Store → Prop} {Settled Settled' : σ → Prop}
  {Holds : φ → Store → Prop} {env : Bytes → ε'} {log : Store}

/-- A file that holds a log stores it. -/
theorem Stores.of_persists (hF : F.Persists Quiet Fits Keeps Settled Holds)
    (hG : Embeds F G object file surroundings) (hquiet : ∀ path, Quiet (surroundings (env path)))
    {f : φ} (hfits : Fits log) (hholds : Holds f log) :
    ∃ log', Stores env G (.file (file f)) log' ∧ log'.length < 2 ^ 32 ∧
      ∀ path, lastWrite log' path = lastWrite log path := by
  have hmode : OpenMode.read ≠ .write := by decide
  obtain ⟨s, names, hopen, hkeeps, -, hnames, hlt, hmem⟩ := hF.reopen hmode hfits hholds
  -- The log in the order in which the paths are listed.
  have hsame (path : Bytes) : lastWrite (names.map fun path => (path, (lastWrite log path).getD []))
      path = lastWrite log path := by
    rw [lastWrite_map_key]
    split
    · next hpath =>
      obtain ⟨contents, hcontents⟩ := exists_lastWrite ((hmem path).mp hpath)
      rw [hcontents]
      rfl
    · next hpath => exact (lastWrite_eq_none_iff.mpr fun h => hpath ((hmem path).mpr h)).symm
  refine ⟨names.map fun path => (path, (lastWrite log path).getD []), ⟨object s, ?_, ?_, ?_⟩,
    by rwa [List.length_map], hsame⟩
  · rw [hG.reopen, hopen]
    rfl
  · rw [List.map_map]
    show Gtar.Names _ _ (names.map id)
    rw [List.map_id]
    exact ⟨(hG.size s).trans hnames.size, fun i h => (hG.getItemName s i).trans (hnames.getItemName i h)⟩
  · -- Every read leaves an object that keeps the log.
    refine ReadsAs.of_keeps (fun s' => ∃ s, s' = object s ∧ Keeps (.file f) .read s log) ?_
      ⟨s, rfl, hkeeps⟩
    rintro _ path ⟨s, rfl, hkeeps⟩
    obtain ⟨hanswer, hnext, -⟩ := hF.read path hkeeps (hquiet path)
    rw [hG.read, hsame]
    exact ⟨hanswer, _, rfl, hnext⟩

/-- The records of a log that fits are taken. -/
theorem records_of_persists (hF : F.Persists Quiet Fits Keeps Settled Holds)
    (hG : Embeds F G object file surroundings) (hquiet : ∀ path, Quiet (surroundings (env path)))
    {s : σ} {before : Store} (hfits : Fits (before ++ log)) (hkeeps : Keeps .absent .write s before)
    (hsettled : Settled s) : ∃ s', attempt (record G.backend env) (object s) log = (object s', none) ∧
      Keeps .absent .write s' (before ++ log) ∧ Settled s' := by
  induction log generalizing s before with
  | nil => exact ⟨s, rfl, by rwa [List.append_nil], hsettled⟩
  | cons e log ih =>
    rw [← List.singleton_append, ← List.append_assoc] at hfits ⊢
    obtain ⟨hdone, hnext, hflushed⟩ := hF.writePtr (w := ⟨e.1, e.2, .fastCompress, true⟩) hkeeps
      (by decide) (hF.fits_of_append hfits) (hquiet e.1)
    obtain ⟨s', hrest, hend⟩ := ih hfits hnext (hflushed rfl)
    have htaken : record G.backend env (object s) e =
        (object (F.backend.writePtr s ⟨e.1, e.2, .fastCompress, true⟩ (surroundings (env e.1))).1,
          none) := by
      unfold record
      rw [hG.writePtr, Prod.map_fst, Prod.map_snd, hdone]
      rfl
    refine ⟨s', ?_, hend⟩
    rw [List.singleton_append, attempt_cons_of_none (by rw [htaken]), htaken]
    exact hrest

/-- A format that persists takes a log that fits, and every format of the same files stores it. -/
theorem Written.of_persists (hF : F.Persists Quiet Fits Keeps Settled Holds)
    (hF' : F'.Persists Quiet Fits Keeps' Settled' Holds) (hG : Embeds F G object file surroundings)
    (hG' : Embeds F' G' object file surroundings) (hquiet : ∀ path, Quiet (surroundings (env path)))
    (hfits : Fits log) : ∃ f log', Written env G log (.file f) ∧ Stores env G' (.file f) log' ∧
      log'.length < 2 ^ 32 ∧ ∀ path, lastWrite log' path = lastWrite log path := by
  obtain ⟨s, hopen, hkeeps, hsettled, -⟩ := hF.create .absent
  have hall : Fits ([] ++ log) := hfits
  obtain ⟨s', hrecords, hkept, hend⟩ := records_of_persists hF hG hquiet hall hkeeps hsettled
  obtain ⟨f, hclose, hholds⟩ := hF.close hkept hend
  obtain ⟨log', hstores, hsame⟩ := Stores.of_persists hF' hG' hquiet hfits hholds
  refine ⟨file f, log', ⟨object s, ?_, ?_, ?_⟩, hstores, hsame⟩
  · rw [hG.create, hopen]
    rfl
  · rw [hrecords]
  · rw [hrecords]
    exact hG.close s' f hclose

end

/-! ## The formats behind the constructor -/

section

variable (p : Platform) (foreign : Foreign) {name : Bytes}

/-- The names of tar files. -/
theorem embeds_tar (h : archiveFormat name = .tar) :
    Embeds (tarFormat p.fuel name) (gtarFormat p foreign name) .tar .tar Surroundings.tar where
  create := by simp only [gtarFormat, h]; rfl
  reopen _ := by simp only [gtarFormat, h]; rfl
  writePtr _ _ _ := rfl
  read _ _ _ := rfl
  size _ := rfl
  getItemName _ _ := rfl
  close a f hclose := congrArg (OnDisk.map ArchiveFile.tar) hclose

/-- The names of sqlite files. -/
theorem embeds_sqlite (h : archiveFormat name = .sqlite) :
    Embeds (sqliteFormat p.lz4 name p.errmsg) (gtarFormat p foreign name) .sqlite .sqlite
      Surroundings.sqlite where
  create := by simp only [gtarFormat, h]; rfl
  reopen _ := by simp only [gtarFormat, h]; rfl
  writePtr _ _ _ := rfl
  read _ _ _ := rfl
  size _ := rfl
  getItemName _ _ := rfl
  close a f hclose := congrArg (OnDisk.map ArchiveFile.sqlite) hclose

/-- All other names but those of directories. -/
theorem embeds_zip (h : archiveFormat name = .zip) :
    Embeds (zipFormat name p.errorString) (gtarFormat p foreign name) .zip .zip Surroundings.zip where
  create := by simp only [gtarFormat, h]; rfl
  reopen _ := by simp only [gtarFormat, h]; rfl
  writePtr _ _ _ := rfl
  read _ _ _ := rfl
  size _ := rfl
  getItemName _ _ := rfl
  close a f hclose := by
    have hmode : a.mode ≠ .read := fun hread => by
      unfold zipFormat at hclose
      simp only [if_pos hread] at hclose
      cases hclose
    exact (if_neg hmode).trans (congrArg (OnDisk.map ArchiveFile.zip) hclose)

/-- The log can be kept in a file of the format. -/
def Platform.Fits (format : ArchiveFormat) (log : Store) : Prop :=
  match format with
  | .tar => TarArchive.Fits p.fuel log
  | .sqlite => Sqlite.Fits log
  | .zip => ZipArchive.Fits log
  | .dir => False

/-- Whether a log fits depends on the paths and the sizes only. -/
theorem Platform.Fits.congr {p : Platform} {format : ArchiveFormat} {log log' : Store}
    (h : p.Fits format log)
    (hsame : log'.map (fun e => (e.1, e.2.length)) = log.map fun e => (e.1, e.2.length)) :
    p.Fits format log' := by
  have hlength : log'.length = log.length := by
    simpa only [List.length_map] using congrArg List.length hsame
  have hall {P : Bytes → ℕ → Prop} (hlog : ∀ e ∈ log, P e.1 e.2.length) : ∀ e ∈ log', P e.1 e.2.length := by
    have hmap : ∀ x ∈ log.map fun e => (e.1, e.2.length), P x.1 x.2 := List.forall_mem_map.mpr hlog
    rw [← hsame] at hmap
    exact List.forall_mem_map.mp hmap
  cases format with
  | tar =>
    obtain ⟨hcount, hscanned, hnamed, hsized, hroom⟩ := (h : TarArchive.Fits p.fuel log)
    have hsum : TarArchive.recordsLength log' = TarArchive.recordsLength log := by
      have hsizes := congrArg (fun xs => (xs.map fun x : Bytes × ℕ =>
        headerLength + x.2 + TarArchive.padLength x.2).sum) hsame
      unfold TarArchive.recordsLength
      simpa only [List.map_map, Function.comp_def] using hsizes
    exact ⟨hlength ▸ hcount, hlength ▸ hscanned,
      hall (P := fun path _ => (0 : UInt8) ∉ path ∧ path.length ≤ 99) hnamed,
      hall (P := fun _ size => size < sizeFieldBound) hsized, hsum ▸ hroom⟩
  | sqlite =>
    obtain ⟨hcount, hsized, hgrows⟩ := (h : Sqlite.Fits log)
    have hpairs (log : Store) :
        (log.map fun e => (e.1, e.2.length)).Pairwise
            (fun x y => x.1 = y.1 → chunkCount x.2 ≤ chunkCount y.2) ↔
          log.Pairwise fun e e' => e.1 = e'.1 → chunkCount e.2.length ≤ chunkCount e'.2.length :=
      List.pairwise_map
    exact ⟨hlength ▸ hcount, hall (P := fun _ size => 0 < size ∧ size ≤ lengthBound) hsized,
      (hpairs log').mp (hsame ▸ (hpairs log).mpr hgrows)⟩
  | zip =>
    obtain ⟨hcount, hnamed⟩ := (h : ZipArchive.Fits log)
    exact ⟨hlength ▸ hcount, hall (P := fun path _ => (0 : UInt8) ∉ path) hnamed⟩
  | dir => exact h

variable {p} {env : Bytes → Surroundings} {log : Store}

/-- A new file takes a log that fits, and stores it under every name with the same format. -/
theorem gtarFormat_written {name' : Bytes} (hlz4 : p.lz4.Inverts) (hfuel : 2 ≤ p.fuel)
    (hsame : archiveFormat name' = archiveFormat name) (hquiet : ∀ path, (env path).Quiet)
    (hfits : p.Fits (archiveFormat name) log) :
    ∃ f log', Written env (gtarFormat p foreign name') log (.file f) ∧
      Stores env (gtarFormat p foreign name) (.file f) log' ∧ log'.length < 2 ^ 32 ∧
      ∀ path, lastWrite log' path = lastWrite log path := by
  cases hformat : archiveFormat name with
  | tar =>
    rw [hformat] at hsame hfits
    exact Written.of_persists (tarFormat_persists hfuel name') (tarFormat_persists hfuel name)
      (embeds_tar p foreign hsame) (embeds_tar p foreign hformat) (fun _ => trivial) hfits
  | dir =>
    rw [hformat] at hfits
    exact hfits.elim
  | sqlite =>
    rw [hformat] at hsame hfits
    exact Written.of_persists (sqliteFormat_persists hlz4 name' p.errmsg)
      (sqliteFormat_persists hlz4 name p.errmsg) (embeds_sqlite p foreign hsame)
      (embeds_sqlite p foreign hformat) (fun path => (hquiet path).1) hfits
  | zip =>
    rw [hformat] at hsame hfits
    exact Written.of_persists (zipFormat_persists name' p.errorString)
      (zipFormat_persists name p.errorString) (embeds_zip p foreign hsame)
      (embeds_zip p foreign hformat) (fun path => (hquiet path).2) hfits

/-! ## Zip files -/

/-- A zip file stores its entries, in the zip64 format or not. -/
theorem stores_zip (h : archiveFormat name = .zip) (archive : MzZipArchive) (isZip64 : Bool) :
    Stores env (gtarFormat p foreign name) (.file (.zip (.zip archive isZip64))) archive.entries := by
  have hnames := names_zipBackend (.ofArchive .read archive)
  refine ⟨.zip (.ofArchive .read archive), ?_, ⟨hnames.size, hnames.getItemName⟩, ?_⟩
  · simp only [gtarFormat, h]
    rfl
  · refine ReadsAs.of_keeps (fun s => ∃ a, s = .zip a ∧ ZipArchive.Keeps a archive.entries) ?_
      ⟨_, rfl, ZipArchive.tracks_ofArchive .read archive, rfl⟩
    rintro _ path ⟨a, rfl, hkeeps⟩
    obtain ⟨hanswer, hnext⟩ := zipBackend_exact.read hkeeps path (env path).zip
    exact ⟨hanswer, _, rfl, hnext⟩

/-- A record that a zip file takes is one more entry. -/
theorem record_zip {a : ZipArchive} {e : Bytes × Bytes}
    (h : (record (archiveBackend p) env (.zip a) e).2 = none) :
    ∃ a', (record (archiveBackend p) env (.zip a) e).1 = .zip a' ∧ a'.mode = a.mode ∧
      a'.archive.entries = a.archive.entries ++ [(cStr e.1, e.2)] := by
  have hmode := ZipArchive.mode_writePtr a ⟨e.1, e.2, .fastCompress, true⟩ (env e.1).zip
  refine ⟨_, rfl, hmode, ?_⟩
  rcases ZipArchive.writePtr_spec a ⟨e.1, e.2, .fastCompress, true⟩ (env e.1).zip with
    ⟨hne, -⟩ | ⟨-, hentries, -⟩
  · -- What is not taken throws.
    have hanswer : ((a.writePtr ⟨e.1, e.2, .fastCompress, true⟩ (env e.1).zip).2).message? = none := h
    revert hne hanswer
    unfold ZipArchive.writePtr
    split
    · exact fun _ h => by cases h
    · split
      · exact fun _ h => by cases h
      · exact fun hne => absurd rfl hne
  · exact hentries

/-- Records that are all taken are the entries behind those that are there. -/
theorem records_zip {a : ZipArchive}
    (h : (attempt (record (archiveBackend p) env) (.zip a) log).2 = none) :
    ∃ a', (attempt (record (archiveBackend p) env) (.zip a) log).1 = .zip a' ∧ a'.mode = a.mode ∧
      a'.archive.entries = a.archive.entries ++ log.map fun e => (cStr e.1, e.2) := by
  induction log generalizing a with
  | nil => exact ⟨a, rfl, rfl, (List.append_nil _).symm⟩
  | cons e log ih =>
    by_cases hfirst : (record (archiveBackend p) env (.zip a) e).2 = none
    · obtain ⟨a₁, hone, hmode₁, hentries₁⟩ := record_zip hfirst
      rw [attempt_cons_of_none hfirst, hone] at h ⊢
      obtain ⟨a', hrest, hmode, hentries⟩ := ih h
      refine ⟨a', hrest, hmode.trans hmode₁, ?_⟩
      rw [hentries, hentries₁, List.append_assoc]
      rfl
    · rw [attempt_cons_of_ne_none hfirst] at h
      exact absurd h hfirst

/-- What is written under the name of a zip file is in the zip64 format, and the records are its
entries. -/
theorem written_zip (h : archiveFormat name = .zip) {disk : OnDisk ArchiveFile}
    (hwritten : Written env (gtarFormat p foreign name) log disk) :
    ∃ archive, disk = .file (.zip (.zip archive true)) ∧
      archive.entries = log.map fun e => (cStr e.1, e.2) := by
  obtain ⟨s, hopen, htaken, rfl⟩ := hwritten
  obtain rfl : .zip (.ofArchive .write ⟨[], by decide⟩) = s := by
    simp only [gtarFormat, h] at hopen
    exact Except.ok.inj (Option.some.inj hopen)
  obtain ⟨a', hrecords, hmode, hentries⟩ := records_zip htaken
  refine ⟨a'.archive, ?_, hentries⟩
  have hne : a'.mode ≠ .read := by
    rw [hmode]
    decide
  have hleft : (attempt (record (gtarFormat p foreign name).backend env)
      (.zip (.ofArchive .write ⟨[], by decide⟩)) log).1 = .zip a' := hrecords
  rw [hleft]
  exact (if_neg hne).trans (congrArg (OnDisk.map ArchiveFile.zip) (if_neg hne))

end

end Libgetar
