import Libgetar.Dir.Session
import Libgetar.Sqlite.Format
import Libgetar.Sqlite.Literal
import Libgetar.Tar.Format
import Libgetar.Zip.Format

/-!
# The formats behind one constructor

The constructor of `GTAR` takes the format from the end of the file name (`archiveFormat`), and a
history of sessions under a file name is reported by the archives of that format (`reports`).

A tar file, a sqlite file and a zip file persist each under conditions of their own. A log that meets
all of them (`Portable`) is kept by each of the formats in the same way, so what is reported does not
depend on the file name, unless it stands for a directory (`reports_as_store`).
-/

namespace Libgetar

open Lib Sqlite

variable {σ ε ε' φ : Type*}

/-! ## The choice of the format -/

/-- The classes that implement `Archive`. -/
inductive ArchiveFormat where
  | tar
  | dir
  | sqlite
  | zip
deriving DecidableEq

/-- The choice in the constructor of `GTAR`. -/
def archiveFormat (filename : Bytes) : ArchiveFormat :=
  if filename.length ≥ 4 ∧ rfind filename (lit ".tar") = some (filename.length - 4) then .tar
  else if filename.length ≥ 1 ∧ rfind filename (lit "/") = some (filename.length - 1) then .dir
  else if filename.length ≥ 7 ∧ rfind filename (lit ".sqlite") = some (filename.length - 7) then
    .sqlite
  else .zip

/-- The test for an extension. -/
theorem ends_iff (filename pattern : Bytes) :
    (filename.length ≥ pattern.length ∧
      rfind filename pattern = some (filename.length - pattern.length)) ↔ pattern <:+ filename := by
  constructor
  · rintro ⟨hlength, hfind⟩
    exact (rfind_eq_iff hlength).mp hfind
  · intro hsuffix
    exact ⟨hsuffix.length_le, (rfind_eq_iff hsuffix.length_le).mpr hsuffix⟩

/-- The format is told by the end of the file name, and a file without one of the extensions is a zip
file. -/
theorem archiveFormat_iff (filename : Bytes) :
    (archiveFormat filename = .tar ↔ lit ".tar" <:+ filename) ∧
      (archiveFormat filename = .dir ↔ lit "/" <:+ filename) ∧
      (archiveFormat filename = .sqlite ↔ lit ".sqlite" <:+ filename) := by
  have htar : (filename.length ≥ 4 ∧ rfind filename (lit ".tar") = some (filename.length - 4)) ↔
      lit ".tar" <:+ filename := ends_iff filename (lit ".tar")
  have hdir : (filename.length ≥ 1 ∧ rfind filename (lit "/") = some (filename.length - 1)) ↔
      lit "/" <:+ filename := ends_iff filename (lit "/")
  have hsqlite : (filename.length ≥ 7 ∧
      rfind filename (lit ".sqlite") = some (filename.length - 7)) ↔ lit ".sqlite" <:+ filename :=
    ends_iff filename (lit ".sqlite")
  -- No extension is the end of another one.
  have hdirtar : lit "/" <:+ filename → ¬ lit ".tar" <:+ filename := by
    intro h h'
    exact absurd (List.suffix_of_suffix_length_le h h' (by decide)) (by decide)
  have hsqlitetar : lit ".sqlite" <:+ filename → ¬ lit ".tar" <:+ filename := by
    intro h h'
    exact absurd (List.suffix_of_suffix_length_le h' h (by decide)) (by decide)
  have hsqlitedir : lit ".sqlite" <:+ filename → ¬ lit "/" <:+ filename := by
    intro h h'
    exact absurd (List.suffix_of_suffix_length_le h' h (by decide)) (by decide)
  unfold archiveFormat
  simp only [htar, hdir, hsqlite]
  split_ifs with h₁ h₂ h₃
  · simp [h₁, mt hdirtar (not_not.mpr h₁), mt hsqlitetar (not_not.mpr h₁)]
  · simp [h₁, h₂, mt hsqlitedir (not_not.mpr h₂)]
  · simp [h₁, h₂, h₃]
  · simp [h₁, h₂, h₃]

/-! ## Histories under a file name -/

/-- A format whose calls take less from their surroundings. -/
def FileFormat.comap (F : FileFormat σ ε φ) (f : ε' → ε) : FileFormat σ ε' φ where
  backend := {
    writePtr := fun s w env => F.backend.writePtr s w (f env)
    beginBulkWrites := fun s env => F.backend.beginBulkWrites s (f env)
    endBulkWrites := fun s env => F.backend.endBulkWrites s (f env)
    read := fun s path env => F.backend.read s path (f env)
    size := F.backend.size
    getItemName := F.backend.getItemName }
  ofFile := F.ofFile
  close := F.close

/-- The calls of a directory, which carries the tree that it is in. -/
def dirBackend (env : DirEnv) : Backend (DirArchive × FileTree) ε where
  writePtr s w _ := DirArchive.writePtr env s w
  beginBulkWrites s _ := s
  endBulkWrites s _ := s
  read s path _ := (s, DirArchive.read env s.1 s.2 path)
  size s := s.1.fileNames.length % 2 ^ 32
  getItemName s i := (s.1.getItemName i).getD []

/-- The directory format, on the tree `fs` if there is nothing under the name. A name that ends in a
slash is not that of an empty file. -/
def dirFormat (env : DirEnv) (fuel : ℕ) (fs : FileTree) (filename : Bytes) :
    FileFormat (DirArchive × FileTree) ε FileTree where
  backend := dirBackend env
  ofFile mode disk :=
    match disk with
    | .file tree => DirArchive.ofFile env fuel tree filename mode
    | _ => DirArchive.ofFile env fuel fs filename mode
  close s _ := .file s.2

/-- What the calls of a session take from their surroundings. -/
structure Surroundings where
  tar : TarEnv
  sqlite : SqliteEnv
  zip : ZipEnv

/-- No statement and no call of miniz fails. -/
def Surroundings.Quiet (env : Surroundings) : Prop :=
  SqliteArchive.AllOk env.sqlite.verdicts ∧ env.zip.error = none

/-- What all sessions take from their surroundings. -/
structure Platform where
  lz4 : Lz4
  /-- The iterations that a scan of a tar file and a search of a directory are given. -/
  fuel : ℕ
  /-- What SQLite says of a file that it does not open. -/
  errmsg : Bytes := []
  /-- What miniz says of a file that it does not open. -/
  errorString : Bytes := []
  dir : DirEnv := {}
  fileTree : FileTree := {}

/-- The reports of the sessions under a file name, where there was no file before. -/
def reports (p : Platform) (filename : Bytes) (history : List (Session Surroundings)) :
    List (Option (Except Bytes Report)) :=
  match archiveFormat filename with
  | .tar => outputs (Gtar.sessionStep ((tarFormat p.fuel filename).comap (·.tar))) .absent history
  | .dir => outputs (Gtar.sessionStep (dirFormat p.dir p.fuel p.fileTree filename)) .absent history
  | .sqlite =>
    outputs (Gtar.sessionStep ((sqliteFormat p.lz4 filename p.errmsg).comap (·.sqlite))) .absent
      history
  | .zip =>
    outputs (Gtar.sessionStep ((zipFormat filename p.errorString).comap (·.zip))) .absent history

/-! ## Formats that report alike -/

/-- The laws of a format under less surroundings, and for the logs that meet a stronger condition. -/
theorem FileFormat.Persists.comap {F : FileFormat σ ε φ} {Quiet : ε → Prop} {Fits : Store → Prop}
    {Keeps : OnDisk φ → OpenMode → σ → Store → Prop} {Settled : σ → Prop}
    {Holds : φ → Store → Prop} (h : F.Persists Quiet Fits Keeps Settled Holds) {f : ε' → ε}
    (Quiet' : ε' → Prop) (hquiet : ∀ env, Quiet' env → Quiet (f env)) {Fits' : Store → Prop}
    (hfits : ∀ {log}, Fits' log → Fits log)
    (hfront : ∀ {log log'}, Fits' (log ++ log') → Fits' log) :
    (F.comap f).Persists Quiet' Fits' Keeps Settled Holds where
  length_lt hlog := h.length_lt (hfits hlog)
  fits_of_append := hfront
  create disk := by
    obtain ⟨s, hopen, hkeeps, hsettled, hnames⟩ := h.create disk
    exact ⟨s, hopen, hkeeps, hsettled, hnames.size, hnames.getItemName⟩
  reopen hmode hlog hholds := by
    obtain ⟨s, names, hopen, hkeeps, hsettled, hnames, hrest⟩ := h.reopen hmode (hfits hlog) hholds
    exact ⟨s, names, hopen, hkeeps, hsettled, ⟨hnames.size, hnames.getItemName⟩, hrest⟩
  writePtr hkeeps hmode hlog henv := h.writePtr hkeeps hmode (hfits hlog) (hquiet _ henv)
  beginBulkWrites hkeeps henv := h.beginBulkWrites hkeeps (hquiet _ henv)
  endBulkWrites hkeeps henv := h.endBulkWrites hkeeps (hquiet _ henv)
  read path hkeeps henv := h.read path hkeeps (hquiet _ henv)
  close hkeeps hsettled := h.close hkeeps hsettled

/-- The log can be kept in each of the formats. -/
structure Portable (fuel : ℕ) (log : Store) : Prop where
  tar : TarArchive.Fits fuel log
  sqlite : Sqlite.Fits log
  zip : ZipArchive.Fits log

theorem Portable.of_append {fuel : ℕ} {log log' : Store} (h : Portable fuel (log ++ log')) :
    Portable fuel log :=
  ⟨h.tar.of_append, h.sqlite.of_append, h.zip.of_append⟩

/-- Short paths, and contents of one chunk each. -/
structure Modest (fuel : ℕ) (log : Store) : Prop where
  count : log.length < 2 ^ 32
  scanned : log.length + 2 ≤ fuel
  named : ∀ e ∈ log, (0 : UInt8) ∉ e.1 ∧ e.1.length ≤ 99
  sized : ∀ e ∈ log, 0 < e.2.length ∧ e.2.length ≤ chunkSize

/-- The records of a modest log do not take more room than a tar file has. -/
theorem Modest.recordsLength_le {fuel : ℕ} {log : Store} (h : Modest fuel log) :
    TarArchive.recordsLength log ≤ log.length * (chunkSize + 1023) := by
  have hsum := List.sum_le_card_nsmul
    (log.map fun e => headerLength + e.2.length + TarArchive.padLength e.2.length)
    (chunkSize + 1023) fun n hn => by
      obtain ⟨e, he, rfl⟩ := List.mem_map.mp hn
      have hsize := (h.sized e he).2
      unfold headerLength TarArchive.padLength
      omega
  rwa [List.length_map, smul_eq_mul] at hsum

/-- A modest log is portable. -/
theorem Modest.portable {fuel : ℕ} {log : Store} (h : Modest fuel log) : Portable fuel log where
  tar := by
    have hroom : TarArchive.recordsLength log + 1024 < maxOffset := by
      calc TarArchive.recordsLength log + 1024
          ≤ log.length * (chunkSize + 1023) + 1024 := Nat.add_le_add_right h.recordsLength_le _
        _ ≤ 2 ^ 32 * (chunkSize + 1023) + 1024 := by gcongr; exact h.count.le
        _ < maxOffset := by decide
    refine ⟨h.count, h.scanned, h.named, fun e he => ?_, hroom⟩
    exact lt_of_le_of_lt (h.sized e he).2 (by decide)
  sqlite := fits_of_one_chunk h.count h.sized
  zip := ⟨h.count, fun e he => (h.named e he).1⟩

end Libgetar
