import Libgetar.Catalogue.Sessions
import Libgetar.Tar.Names

/-!
# Sessions on a tar file

A tar file persists (`tarFormat_persists`). Its entries keep their names when it is scanned if these
were short enough for the first field of the header and had no null byte, and their data if the length
fits the size field. Behind the entries there is at most the trailer, so closing leaves the entries
and the trailer (`OpenOn.close`): in a file that was opened for reading, because nothing is written
to it and the trailer was there before.
-/

namespace Libgetar

open Lib

/-- The bytes of a file. -/
def OnDisk.bytes : OnDisk Bytes → Option Bytes
  | .absent => none
  | .empty => some []
  | .file bytes => some bytes

/-- The tar format. -/
def tarFormat (fuel : ℕ) (filename : Bytes) : FileFormat TarArchive TarEnv Bytes where
  backend := tarBackend
  ofFile mode disk := TarArchive.ofFile fuel filename mode disk.bytes
  close a _ := .file a.close.file.bytes

namespace TarArchive

/-- The number of bytes of the records for a log. -/
def recordsLength (log : Store) : ℕ :=
  (log.map fun e => headerLength + e.2.length + padLength e.2.length).sum

/-- The log can be kept in a tar file, whose scan ends within the fuel. -/
structure Fits (fuel : ℕ) (log : Store) : Prop where
  count : log.length < 2 ^ 32
  scanned : log.length + 2 ≤ fuel
  named : ∀ e ∈ log, (0 : UInt8) ∉ e.1 ∧ e.1.length ≤ 99
  sized : ∀ e ∈ log, e.2.length < sizeFieldBound
  room : recordsLength log + 1024 < maxOffset

/-- The archive was opened in the mode, and is open on the entries of the log. They are decoded as
they are, and nothing but the trailer is behind them. -/
def OpenOn (mode : OpenMode) (a : TarArchive) (log : Store) : Prop :=
  ∃ es tail, Holds a es tail ∧ a.mode = mode ∧ contents es = log ∧ (∀ e ∈ es, e.Decodes) ∧
    (mode = .read → tail = trailer) ∧ tail.length ≤ 1024

/-- The file has the entries of the log, which are decoded as they are, and the trailer. -/
def FileHolds (bytes : Bytes) (log : Store) : Prop :=
  ∃ es, bytes = image es ++ trailer ∧ contents es = log ∧ ∀ e ∈ es, e.Decodes

variable {fuel : ℕ} {filename : Bytes} {mode : OpenMode} {a : TarArchive} {log : Store}

theorem Fits.of_append {log' : Store} (h : Fits fuel (log ++ log')) : Fits fuel log where
  count := by
    have hcount := h.count
    rw [List.length_append] at hcount
    omega
  scanned := by
    have hscanned := h.scanned
    rw [List.length_append] at hscanned
    omega
  named e he := h.named e (List.mem_append_left _ he)
  sized e he := h.sized e (List.mem_append_left _ he)
  room := by
    have hroom := h.room
    rw [recordsLength, List.map_append, List.sum_append] at hroom
    unfold recordsLength
    omega

/-- The length of an image depends on the contents only. -/
theorem length_image_eq (es : List Entry) : (image es).length = recordsLength (contents es) := by
  induction es with
  | nil => rfl
  | cons e es ih =>
    rw [image_cons, List.length_append, e.length_bytes, ih]
    rfl

/-- The record of a write that fits is decoded as it is. -/
theorem decodes_recordOf {w : Write} (env : TarEnv) (hnul : (0 : UInt8) ∉ w.path)
    (hshort : w.path.length ≤ 99) (hlen : w.contents.length < sizeFieldBound) :
    (recordOf w env).Decodes := by
  have hstored : (recordOf w env).asStored = recordOf w env := by
    unfold Entry.asStored
    rw [show (recordOf w env).name = w.path from rfl, storedName_of_short hnul hshort]
    rfl
  have hdecodes := (asStored_wellFormed w env hlen).decodes (hlen.trans (by decide))
  rwa [hstored] at hdecodes

/-! ## The calls -/

/-- A write. -/
theorem OpenOn.writePtr (h : OpenOn mode a log) (hmode : mode ≠ .read) {w : Write}
    (hfits : Fits fuel (log ++ [(w.path, w.contents)])) (env : TarEnv) :
    (a.writePtr w env).2 = .done ∧
      OpenOn mode (a.writePtr w env).1 (log ++ [(w.path, w.contents)]) := by
  obtain ⟨es, tail, hholds, rfl, rfl, hdecodes, -, htail⟩ := h
  have hlast : (w.path, w.contents) ∈ contents es ++ [(w.path, w.contents)] :=
    List.mem_append_right _ (List.mem_singleton_self _)
  have hshort : w.path.length ≤ 99 := (hfits.named _ hlast).2
  have hcontents : contents (es ++ [recordOf w env]) = contents es ++ [(w.path, w.contents)] := by
    simp only [contents, List.map_append, List.map_singleton]
    rfl
  have hroom := hfits.room
  rw [← hcontents, ← length_image_eq, image_append, image_singleton, List.length_append,
    Entry.length_bytes] at hroom
  obtain ⟨hdone, hnext, hsame⟩ := hholds.writePtr_accepted hmode env
    ((refuses_eq_none_iff w.path).mpr (by omega)) (by omega)
  refine ⟨hdone, _, _, hnext, hsame, hcontents, fun e he => ?_, fun hread => absurd hread hmode, ?_⟩
  · rcases List.mem_append.mp he with he | he
    · exact hdecodes e he
    · rw [List.mem_singleton.mp he]
      exact decodes_recordOf env (hfits.named _ hlast).1 hshort (hfits.sized _ hlast)
  · rw [List.length_drop]
    omega

/-- A read. -/
theorem OpenOn.read (h : OpenOn mode a log) (path : Bytes) (env : TarEnv) :
    (a.read path env).2 = lastWrite log path ∧ OpenOn mode (a.read path env).1 log := by
  obtain ⟨es, tail, hholds, rfl, rfl, hdecodes, hread, htail⟩ := h
  obtain ⟨hdata, hnext⟩ := hholds.read path env
  exact ⟨hdata, es, tail, hnext, mode_read a path env, rfl, hdecodes, hread, htail⟩

/-- Closing depends on the stream and the end of the entries only. -/
theorem close_file_congr {a b : TarArchive} (hfile : a.file = b.file)
    (hmax : a.maxPosition = b.maxPosition) : a.close.file = b.close.file := by
  unfold TarArchive.close
  rw [hfile, hmax]
  split
  · rfl
  · exact hfile

/-- A file that was not opened for output is left as it is. -/
theorem bytes_close_of_not_out (hready : a.file.Ready) (hsmall : a.maxPosition < maxOffset)
    (hout : a.file.out = false) : a.close.file.bytes = a.file.bytes := by
  have hput (n : ℕ) : ((a.file.seekp a.maxPosition).putN 0 n).close.bytes = a.file.bytes := by
    rw [FStream.seekp_of_lt hready hsmall]
    exact FStream.bytes_putN_of_not_out 0 (s := { a.file with pos := a.maxPosition }) hout n
  unfold TarArchive.close
  rw [if_pos hready.isOpen]
  exact hput _

/-- Closing leaves the entries and the trailer. -/
theorem OpenOn.close (h : OpenOn mode a log) (hroom : recordsLength log + 1024 < maxOffset) :
    FileHolds a.close.file.bytes log := by
  obtain ⟨es, tail, hholds, rfl, rfl, hdecodes, hread, htail⟩ := h
  rw [← length_image_eq] at hroom
  refine ⟨es, ?_, rfl, hdecodes⟩
  by_cases hmode : a.mode = .read
  · -- Either nothing is put into the file, or the trailer is put over the trailer.
    have hsmall : a.maxPosition < maxOffset := by
      rw [hholds.maxPosition]
      omega
    obtain rfl := hread hmode
    cases hout : a.file.out with
    | false =>
      rw [bytes_close_of_not_out hholds.ready hsmall hout]
      exact hholds.bytes
    | true =>
      have hwritable : Holds { a with mode := .append } es trailer := { hholds with
        writable := fun _ => hout }
      have hsession : Session 1024 { a with mode := .append } es :=
        ⟨OpenMode.noConfusion, trailer, htail, hwritable⟩
      rw [← hsession.close hroom]
      exact congrArg FStream.bytes (close_file_congr rfl rfl)
  · have hsession : Session 1024 a es := ⟨hmode, tail, htail, hholds⟩
    exact hsession.close hroom

/-! ## Opening -/

/-- A new file is open on nothing. -/
theorem exists_openOn_write (hfuel : 2 ≤ fuel) (filename : Bytes) (disk : Option Bytes) :
    ∃ a, ofFile fuel filename .write disk = some (.ok a) ∧ OpenOn .write a [] ∧ a.fileNames = [] := by
  have hopen : openFile .write disk = some { bytes := [], out := true } := by
    cases disk <;> rfl
  have hbytes : ([] : Bytes) = image [] ++ [] := rfl
  obtain ⟨a, hfile, hholds, hmode⟩ :=
    ofFile_holds hopen hbytes (by simp) (Or.inl rfl) (by decide) filename
  refine ⟨a, hfile fuel hfuel, ⟨[], [], hholds, hmode, rfl, by simp, fun hread => ?_, by simp⟩,
    hholds.names⟩
  cases hread

/-- A file that holds a log is open on it. -/
theorem FileHolds.exists_openOn {bytes : Bytes} (h : FileHolds bytes log) (hfits : Fits fuel log)
    (hmode : mode ≠ .write) (filename : Bytes) :
    ∃ a, ofFile fuel filename mode (some bytes) = some (.ok a) ∧ OpenOn mode a log ∧
      a.fileNames = log.map Prod.fst := by
  obtain ⟨es, rfl, rfl, hdecodes⟩ := h
  obtain ⟨file, hopen, hbytes⟩ : ∃ file,
      openFile mode (some (image es ++ trailer)) = some file ∧ file.bytes = image es ++ trailer := by
    cases mode with
    | write => exact absurd rfl hmode
    | append => exact ⟨_, rfl, rfl⟩
    | read => exact ⟨_, rfl, rfl⟩
  have hlen : file.bytes.length < maxOffset := by
    rw [hbytes, List.length_append, length_image_eq, trailer, List.length_replicate]
    exact hfits.room
  have hscanned := hfits.scanned
  rw [contents, List.length_map] at hscanned
  obtain ⟨a, hfile, hholds, hsame⟩ :=
    ofFile_holds hopen hbytes hdecodes endsFile_trailer hlen filename
  refine ⟨a, hfile fuel hscanned,
    ⟨es, trailer, hholds, hsame, rfl, hdecodes, fun _ => rfl, ?_⟩, ?_⟩
  · rw [trailer, List.length_replicate]
  · rw [hholds.names, contents, List.map_map]
    rfl

/-- The items of a tar file are its names. -/
theorem names_tarBackend (a : TarArchive) : Gtar.Names tarBackend a a.fileNames where
  size := rfl
  getItemName i h := by
    show (a.fileNames[i]?).getD [] = _
    rw [List.getElem?_eq_getElem h, Option.getD_some, List.get_eq_getElem]

end TarArchive

open TarArchive

/-- A tar file keeps what is written. -/
theorem tarFormat_persists {fuel : ℕ} (hfuel : 2 ≤ fuel) (filename : Bytes) :
    (tarFormat fuel filename).Persists (fun _ => True) (Fits fuel)
      (fun _ mode a log => OpenOn mode a log ∧ recordsLength log + 1024 < maxOffset) (fun _ => True)
      FileHolds where
  length_lt h := h.count
  fits_of_append h := h.of_append
  create disk := by
    obtain ⟨a, hfile, hopen, hnames⟩ := exists_openOn_write hfuel filename disk.bytes
    refine ⟨a, hfile, ⟨hopen, by decide⟩, trivial, ?_⟩
    rw [← hnames]
    exact names_tarBackend a
  reopen := by
    intro mode bytes log hmode hfits hholds
    obtain ⟨a, hfile, hopen, hnames⟩ := hholds.exists_openOn hfits hmode filename
    refine ⟨a, log.map Prod.fst, hfile, ⟨hopen, hfits.room⟩, trivial, ?_, ?_, fun _ => Iff.rfl⟩
    · rw [← hnames]
      exact names_tarBackend a
    · rw [List.length_map]
      exact hfits.count
  writePtr := by
    rintro disk mode a log w env ⟨hopen, -⟩ hmode hfits -
    obtain ⟨hdone, hnext⟩ := hopen.writePtr hmode hfits env
    exact ⟨hdone, ⟨hnext, hfits.room⟩, fun _ => trivial⟩
  beginBulkWrites h _ := h
  endBulkWrites h _ := ⟨h, trivial⟩
  read := by
    rintro disk mode a log env path ⟨hopen, hroom⟩ -
    obtain ⟨hdata, hnext⟩ := hopen.read path env
    exact ⟨congrArg Answer.array hdata, ⟨hnext, hroom⟩, fun _ => trivial⟩
  close := by
    rintro disk mode a log ⟨hopen, hroom⟩ -
    exact ⟨_, rfl, hopen.close hroom⟩

end Libgetar
