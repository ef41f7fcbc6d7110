import Libgetar.Catalogue.Sessions
import Libgetar.Zip.Index

/-!
# Sessions on a zip file

`src/ZipArchive.cpp` opens files of both kinds for reading, but appends to those in the zip64 format
only, which are the ones that it writes. A zip file that it has written persists
(`zipFormat_persists`): its entries are the log.
-/

namespace Libgetar

open Lib

/-- What miniz finds in a file. -/
inductive ZipFile where
  | zip (archive : MzZipArchive) (isZip64 : Bool)
  /-- No archive that it can open. -/
  | other

/-- The message for a file that is not in the zip64 format. -/
def standardZip (filename : Bytes) : Bytes :=
  lit "File " ++ filename ++ lit " is a standard zip archive, " ++
    lit "but we will only append to zip64-format archives. " ++
    lit "You can run the gtar.copy python module to create a " ++ lit "zip64 format archive."

/-- `isZip64`, where `errorString` is what miniz says of a file that it does not open. -/
def isZip64 (errorString : Bytes) : OnDisk ZipFile → Except Bytes Bool
  | .file (.zip _ isZip64) => .ok isZip64
  | _ => .error (lit "Error opening file to check zip64 formatting: " ++ errorString)

/-- The zip format. -/
def zipFormat (filename errorString : Bytes) : FileFormat ZipArchive ZipEnv ZipFile where
  backend := zipBackend
  ofFile mode disk :=
    match mode, disk with
    | .write, _ => some (.ok (.ofArchive .write ⟨[], by decide⟩))
    | .read, .file (.zip archive _) => some (.ok (.ofArchive .read archive))
    | .read, _ => some (.error (lit "Error opening file for read: " ++ errorString))
    | .append, .file (.zip archive true) => some (.ok (.ofArchive .append archive))
    | .append, .file (.zip _ false) => some (.error (standardZip filename))
    | .append, _ => some (.error (lit "Error opening file for append (stage 1): " ++ errorString))
  close a disk := if a.mode = .read then disk else .file (.zip a.archive true)

namespace ZipArchive

/-- The log can be kept in a zip file. -/
structure Fits (log : Store) : Prop where
  count : log.length < 2 ^ 32
  named : ∀ e ∈ log, (0 : UInt8) ∉ e.1

/-- The archive was opened in the mode on what was on the disk, and has the entries of the log. -/
structure OpenOn (disk : OnDisk ZipFile) (mode : OpenMode) (a : ZipArchive) (log : Store) : Prop where
  keeps : Keeps a log
  mode : a.mode = mode
  /-- A file that is read is not written again. -/
  unchanged : a.mode = .read → disk = .file (.zip a.archive true)

/-- A file in the zip64 format with the entries of the log. -/
def FileHolds (f : ZipFile) (log : Store) : Prop :=
  ∃ archive, f = .zip archive true ∧ archive.entries = log

theorem Fits.of_append {log log' : Store} (h : Fits (log ++ log')) : Fits log where
  count := by
    have hcount := h.count
    rw [List.length_append] at hcount
    omega
  named e he := h.named e (List.mem_append_left _ he)

/-- An archive that was opened has the entries of its file. -/
theorem openOn_ofArchive {disk : OnDisk ZipFile} {mode : OpenMode} {archive : MzZipArchive}
    (h : mode = .read → disk = .file (.zip archive true)) :
    OpenOn disk mode (ofArchive mode archive) archive.entries :=
  ⟨⟨tracks_ofArchive mode archive, rfl⟩, rfl, h⟩

/-- The mode of an archive does not change. -/
theorem mode_writePtr (a : ZipArchive) (w : Write) (env : ZipEnv) : (a.writePtr w env).1.mode = a.mode := by
  unfold ZipArchive.writePtr
  split
  · rfl
  · split
    · rfl
    · rfl

/-- A write. -/
theorem OpenOn.writePtr {disk : OnDisk ZipFile} {mode : OpenMode} {a : ZipArchive} {log : Store}
    (h : OpenOn disk mode a log) (hmode : mode ≠ .read) {w : Write}
    (hfits : Fits (log ++ [(w.path, w.contents)])) {env : ZipEnv} (hquiet : env.error = none) :
    (a.writePtr w env).2 = .done ∧
      OpenOn disk mode (a.writePtr w env).1 (log ++ [(w.path, w.contents)]) := by
  have hcount := hfits.count
  rw [List.length_append, List.length_singleton, ← h.keeps.2] at hcount
  have hsucceeds : a.Succeeds w env :=
    ⟨by rw [h.mode]; exact hmode, hquiet, hcount,
      hfits.named _ (List.mem_append_right _ (List.mem_singleton_self (w.path, w.contents)))⟩
  obtain ⟨hdone, hnext⟩ := zipBackend_exact.writePtr h.keeps w env hsucceeds
  have hsame := (mode_writePtr a w env).trans h.mode
  exact ⟨hdone, hnext, hsame, fun hread => absurd (hsame.symm.trans hread) hmode⟩

end ZipArchive

open ZipArchive

/-- A zip file keeps what is written. -/
theorem zipFormat_persists (filename errorString : Bytes) :
    (zipFormat filename errorString).Persists (fun env => env.error = none) Fits OpenOn
      (fun _ => True) FileHolds where
  length_lt h := h.count
  fits_of_append h := h.of_append
  create disk := by
    refine ⟨_, rfl, openOn_ofArchive fun hread => ?_, trivial, names_zipBackend _⟩
    cases hread
  reopen := by
    rintro mode f log hmode hfits ⟨archive, rfl, rfl⟩
    refine ⟨.ofArchive mode archive, archive.entries.map Prod.fst, ?_, openOn_ofArchive fun _ => rfl,
      trivial, names_zipBackend _, ?_, fun _ => Iff.rfl⟩
    · cases mode with
      | write => exact absurd rfl hmode
      | append => rfl
      | read => rfl
    · rw [List.length_map]
      exact archive.count
  writePtr hopen hmode hfits hquiet := by
    obtain ⟨hdone, hnext⟩ := hopen.writePtr hmode hfits hquiet
    exact ⟨hdone, hnext, fun _ => trivial⟩
  beginBulkWrites hopen _ := hopen
  endBulkWrites hopen _ := ⟨hopen, trivial⟩
  read {disk mode a log env} path hopen _ :=
    ⟨(zipBackend_exact.read hopen.keeps path env).1, hopen, fun _ => trivial⟩
  close {disk mode a log} hopen _ := by
    refine ⟨.zip a.archive true, ?_, a.archive, rfl, hopen.keeps.2⟩
    by_cases hread : a.mode = .read
    · exact (if_pos hread).trans (hopen.unchanged hread)
    · exact if_neg hread

end Libgetar
