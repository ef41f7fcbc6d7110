import Libgetar.Python.Cat

/-!
# Repairing a zip file

`main` of `src/gtar/fix.py`. A file that cannot be opened is rebuilt by the command `zip` under a name
that is not taken, and the frame that was written last is deleted if the log of the command shows that
it is cut off. What is not in the zip64 format is copied by `gtar.copy`, which is `Cat.main` with one
input. Only then is the new file moved to the output, and it is removed if anything was raised.

So no file but the output is ever changed, and the output itself, if there is one, only by a run that
raises nothing (`main_safe`). After such a run the output is in the zip64 format, unless the input was
already and there was nothing to do; another output is not written then. This needs the names of zip
files: the copy is of the format that its name stands for.

The command is a parameter (`Zip`), which leaves a zip file, or what miniz does not open, under the name
that it is told. White space and digits are those of ASCII.
-/

namespace Libgetar

open Lib

namespace Fix

/-- What the program gets from elsewhere. -/
structure Zip where
  /-- `zip -FF input --out tempName`: the new file, the log and the exit code. -/
  rebuild : Files ArchiveFile → Bytes → Bytes → Except PyError (OnDisk ZipFile × Bytes × ℤ)
  /-- `zip -d tempName`: the new file, and what `subprocess` raises. -/
  delete : Files ArchiveFile → Bytes → List Bytes → OnDisk ZipFile × Option PyError
  /-- What miniz says of a file that it cannot open. -/
  errorString : Bytes
  /-- What `isZip64` says of a file that another class has left. -/
  foreign : ArchiveFile → Except Bytes Bool

/-! ## The log of the command -/

/-- `\s`. -/
def isSpace (c : UInt8) : Bool := c == 32 || (9 ≤ c && c ≤ 13)

/-- `[0-9]`. -/
def isDigit (c : UInt8) : Bool := 48 ≤ c && c ≤ 57

/-- `frames/([0-9]+)/` at the start. -/
def matchFrame (s : Bytes) : Option Bytes :=
  let digits := (s.drop 7).takeWhile isDigit
  let frame := lit "frames/" ++ digits ++ [slash]
  if digits ≠ [] ∧ frame.isPrefixOf s then some frame else none

/-- `re.search('frames/([0-9]+)/', s).group(0)`. -/
def searchFrame : Bytes → Option Bytes
  | [] => none
  | c :: s => (matchFrame (c :: s)).or (searchFrame s)

/-- The first group of `^\s*copying: (\S*)\s+\(\d+ bytes\)$`. -/
def copied (line : Bytes) : Option Bytes :=
  let s := line.dropWhile isSpace
  let name := (s.drop 9).takeWhile fun c => !isSpace c
  let space := (s.drop (9 + name.length)).takeWhile isSpace
  let digits := (s.drop (9 + name.length + space.length + 1)).takeWhile isDigit
  if space ≠ [] ∧ digits ≠ [] ∧
      s = lit "copying: " ++ name ++ space ++ lit "(" ++ digits ++ lit " bytes)" then some name
  else none

/-- `s.strip()`. -/
def strip (s : Bytes) : Bytes := ((s.dropWhile isSpace).reverse.dropWhile isSpace).reverse

/-- `while frame in zipLog[-1]: deleteLines.append(zipLog.pop())`, on the lines from the last one. -/
def popLines (frame : Bytes) : List Bytes → Except PyError (List Bytes)
  | [] => .error .indexError
  | line :: lines =>
    if line.tails.any frame.isPrefixOf then (popLines frame lines).map (line :: ·) else .ok []

/-- The lines that are deleted, from the last one. -/
def deleteLines (zipLog : List Bytes) : Except PyError (List Bytes) :=
  match zipLog.reverse with
  | [] => .error .indexError
  | line :: lines =>
    if (lit "(4294967295 bytes)").isSuffixOf (strip line) then
      match searchFrame line with
      | some frame => popLines frame (line :: lines)
      | none => .ok [line]
    else .ok []

/-! ## The program -/

section
variable (zip : Zip) (host : Host Archive Surroundings ArchiveFile) (fuel : ℕ)

/-- `isZip64`. -/
def isZip64 (files : Files ArchiveFile) (name : Bytes) : Except PyError Bool :=
  let result :=
    match onDisk files name with
    | .absent => Libgetar.isZip64 zip.errorString .absent
    | .empty => Libgetar.isZip64 zip.errorString .empty
    | .file (.zip f) => Libgetar.isZip64 zip.errorString (.file f)
    | .file f => zip.foreign f
  result.mapError .runtimeError

/-- `rebuildZip`. -/
def rebuildZip (files : Files ArchiveFile) (input tempName : Bytes) :
    Files ArchiveFile × Except PyError (List Bytes) :=
  match zip.rebuild files input tempName with
  | .error e => (files, .error e)
  | .ok (disk, zipLog, returncode) =>
    let files := leave files tempName (disk.map .zip)
    match unpy3str zipLog with
    | .error e => (files, .error e)
    | .ok zipLog =>
      if returncode ≠ 0 ∧ returncode ≠ 3 then
        (files, .error (.runtimeError
          (lit "Error " ++ lit (toString returncode) ++ lit " running zip command")))
      else (files, .ok (zipLog.splitOn 10).dropLast)

/-- `deleteBadFrames`. -/
def deleteBadFrames (files : Files ArchiveFile) (tempName : Bytes) (zipLog : List Bytes) :
    Files ArchiveFile × Option PyError :=
  match deleteLines zipLog with
  | .error e => (files, some e)
  | .ok lines =>
    let toDelete := lines.filterMap copied
    if toDelete = [] then (files, none)
    else
      let (disk, pending) := zip.delete files tempName toDelete
      (leave files tempName (disk.map .zip), pending)

/-- What is done about a file that cannot be opened. -/
def repair (files : Files ArchiveFile) (input tempName : Bytes) :
    Files ArchiveFile × Option PyError :=
  match rebuildZip zip files input tempName with
  | (files, .error e) => (files, some e)
  | (files, .ok zipLog) => deleteBadFrames zip files tempName zipLog

/-- `try`, up to the end of the copy. -/
def tryFix (files : Files ArchiveFile) (needsFix : Bool) (input tempName : Bytes) :
    Option (Files ArchiveFile × Option PyError) :=
  match if needsFix then repair zip files input tempName else (files, none) with
  | (files, some e) => some (files, some e)
  | (files, none) =>
    let fixed := if needsFix then tempName else input
    match isZip64 zip files fixed with
    | .error e => some (files, some e)
    | .ok true => some (files, none)
    | .ok false => Cat.main host fuel files [fixed] tempName

/-- What comes behind the copy: the new file is moved, if there is one and nothing was raised, and then
`finally`. -/
def finishFixed (files : Files ArchiveFile) (tempName output : Bytes) (pending : Option PyError) :
    Files ArchiveFile × Option PyError :=
  match pending with
  | none =>
    if (files.get? tempName).isSome then finish files tempName output none
    else removeTemp files tempName output none
  | some e => finish files tempName output (some e)

/-- `main`, when it is known whether the input can be opened. -/
def fix (files : Files ArchiveFile) (needsFix : Bool) (input output : Bytes) :
    Option (Files ArchiveFile × Option PyError) :=
  if !needsFix ∧ samefile files input output = .ok true ∧ isZip64 zip files output = .ok true then
    some (files, none)
  else if (files.get? input).isNone then
    some (files, some (.runtimeError (lit "Can't find input file " ++ input)))
  else
    match tempNameFrom files fuel (splitext output) output with
    | none => none
    | some tempName =>
      (tryFix zip host fuel files needsFix input tempName).map fun x =>
        finishFixed x.1 tempName output x.2

/-- The files after `main`, and the exception that it raises. The module has no name `gtar`. -/
def main (files : Files ArchiveFile) (input output : Bytes) :
    Option (Files ArchiveFile × Option PyError) :=
  if (lit ".tar").isSuffixOf input ∨ (lit ".sqlite").isSuffixOf input then
    some (files, some (.nameError (lit "gtar")))
  else
    match Cat.openFile host files .read input with
    | .error .hangs => none
    | .error (.raises _) => fix zip host fuel files true input output
    | .ok _ => fix zip host fuel files false input output

end

example : deleteLines [lit "Fix archive", lit " copying: frames/1/a  (12 bytes)",
    lit " copying: frames/2/a  (8 bytes)", lit " copying: frames/2/b  (4294967295 bytes)"] =
    .ok [lit " copying: frames/2/b  (4294967295 bytes)", lit " copying: frames/2/a  (8 bytes)"] := by
  decide +kernel

example : copied (lit " copying: frames/2/a  (8 bytes)") = some (lit "frames/2/a") := by
  decide +kernel

/-- The file is in the zip64 format, and has these entries. -/
def IsZip64 (files : Files ArchiveFile) (name : Bytes) (entries : Store) : Prop :=
  ∃ archive, onDisk files name = .file (.zip (.zip archive true)) ∧ archive.entries = entries

/-- The entries of the copy of an archive. -/
def copyOf (archive : MzZipArchive) (input : Bytes) : Store :=
  (Cat.writtenLog (fun _ => archive.entries) [input]).map fun e => (cStr e.1, e.2)

/-- What is left by a run that raises nothing: an output in the zip64 format, with the copy of an input
that is not, or with what was made of an input that cannot be opened. Of an input in the zip64 format
nothing is made. -/
structure Fixed (files files' : Files ArchiveFile) (input output : Bytes) : Prop where
  kept : ∀ archive, onDisk files input = .file (.zip (.zip archive true)) →
    files'.get? output = files.get? output
  copied : ∀ archive, onDisk files input = .file (.zip (.zip archive false)) →
    IsZip64 files' output (copyOf archive input)
  rebuilt : (∀ archive zip64, onDisk files input ≠ .file (.zip (.zip archive zip64))) →
    ∃ entries, IsZip64 files' output entries

section

variable {zip : Zip} {files files₀ : Files ArchiveFile} {tempName input output name : Bytes}
  {archive : MzZipArchive} {fuel : ℕ}

/-! ## Files under other names -/

/-- The repair leaves all other files as they are. -/
theorem repair_agree (zip : Zip) (files : Files ArchiveFile) (input : Bytes) (hne : name ≠ tempName) :
    (repair zip files input tempName).1.get? name = files.get? name := by
  have hdelete (files : Files ArchiveFile) (zipLog : List Bytes) :
      (deleteBadFrames zip files tempName zipLog).1.get? name = files.get? name := by
    unfold deleteBadFrames
    split
    · rfl
    · simp only
      split
      · rfl
      · exact get?_leave_of_ne _ _ hne
  have hrebuild : (rebuildZip zip files input tempName).1.get? name = files.get? name := by
    unfold rebuildZip
    split
    · rfl
    · simp only
      split
      · exact get?_leave_of_ne _ _ hne
      · split
        · exact get?_leave_of_ne _ _ hne
        · exact get?_leave_of_ne _ _ hne
  unfold repair
  split
  · next rebuilt e heq =>
    rw [heq] at hrebuild
    exact hrebuild
  · next rebuilt zipLog heq =>
    rw [heq] at hrebuild
    exact (hdelete _ _).trans hrebuild

/-- Only the new file is changed. -/
theorem tryFix_agree {host : Host Archive Surroundings ArchiveFile} {needsFix : Bool}
    {files' : Files ArchiveFile} {pending : Option PyError}
    (h : tryFix zip host fuel files needsFix input tempName = some (files', pending))
    (hne : name ≠ tempName) : files'.get? name = files.get? name := by
  have hrepair : (if needsFix then repair zip files input tempName
      else (files, none)).1.get? name = files.get? name := by
    split
    · exact repair_agree zip files input hne
    · rfl
  unfold tryFix at h
  generalize (if needsFix then repair zip files input tempName else (files, none)) = repaired
    at h hrepair
  obtain ⟨files₁, raised⟩ := repaired
  cases raised with
  | some e =>
    obtain ⟨rfl, -⟩ := Prod.mk.inj (Option.some.inj h)
    exact hrepair
  | none =>
    simp only at h
    split at h
    · obtain ⟨rfl, -⟩ := Prod.mk.inj (Option.some.inj h)
      exact hrepair
    · obtain ⟨rfl, -⟩ := Prod.mk.inj (Option.some.inj h)
      exact hrepair
    · exact ((Cat.main_frame h).1 name hne).trans hrepair

/-- What is left when no other file than the new one was changed. -/
theorem finishFixed_spec (hfresh : files₀.get? tempName = none)
    (hname : files₀.get? output = none → tempName = output)
    (hagree : ∀ name ≠ tempName, files.get? name = files₀.get? name) (pending : Option PyError) :
    let ended := finishFixed files tempName output pending
    (∀ name ≠ output, ended.1.get? name = files₀.get? name) ∧
      (ended.2 ≠ none → files₀.get? output ≠ none → ended.1.get? output = files₀.get? output) ∧
      (ended.2 = none → pending = none ∧
        ended.1.get? output = (files.get? tempName).or (files₀.get? output)) := by
  intro ended
  by_cases hnone : pending = none ∧ files.get? tempName = none
  · -- There is no new file.
    obtain ⟨rfl, hgone⟩ := hnone
    have hended : ended = (files, none) := by
      simp only [ended, finishFixed, hgone]
      exact removeTemp_gone hgone none
    have hsame (name : Bytes) : files.get? name = files₀.get? name := by
      by_cases heq : name = tempName
      · rw [heq, hgone, hfresh]
      · exact hagree name heq
    rw [hended, hgone, Option.none_or]
    exact ⟨fun name _ => hsame name, fun h => absurd rfl h, fun _ => ⟨rfl, hsame output⟩⟩
  · have hended : ended = finish files tempName output pending := by
      cases pending with
      | some e => rfl
      | none =>
        have hthere : (files.get? tempName).isSome :=
          Option.isSome_iff_ne_none.mpr fun hgone => hnone ⟨rfl, hgone⟩
        exact if_pos hthere
    obtain ⟨hframe, hsuccess, hmoved, hkept⟩ := finish_spec hfresh hname hagree pending
    rw [hended]
    refine ⟨hframe, hkept, fun hdone => ?_⟩
    obtain ⟨hpending, hthere, -⟩ := hsuccess.mp hdone
    obtain ⟨f, hf⟩ := Option.ne_none_iff_exists'.mp hthere
    refine ⟨hpending, (hmoved hdone).trans ?_⟩
    rw [hf, Option.some_or]

/-- `main`, when it is known whether the input can be opened, changes no file but the output, and if it
raises an exception, not the output either unless that was not there. -/
theorem fix_frame {host : Host Archive Surroundings ArchiveFile} {needsFix : Bool}
    {files' : Files ArchiveFile} {raised : Option PyError}
    (h : fix zip host fuel files needsFix input output = some (files', raised)) :
    (∀ name ≠ output, files'.get? name = files.get? name) ∧
      (raised ≠ none → files.get? output ≠ none → files'.get? output = files.get? output) := by
  unfold fix at h
  split at h
  · obtain ⟨rfl, rfl⟩ := Prod.mk.inj (Option.some.inj h)
    exact ⟨fun _ _ => rfl, fun _ _ => rfl⟩
  · split at h
    · obtain ⟨rfl, rfl⟩ := Prod.mk.inj (Option.some.inj h)
      exact ⟨fun _ _ => rfl, fun _ _ => rfl⟩
    · split at h
      · cases h
      · next tempName htemp =>
        obtain ⟨hfresh, hname⟩ := tempNameFrom_spec htemp
        obtain ⟨⟨files₁, pending⟩, hfix, hended⟩ := Option.map_eq_some_iff.mp h
        obtain ⟨hframe, hkept, -⟩ := finishFixed_spec hfresh hname
          (fun name hne => tryFix_agree hfix hne) pending
        rw [hended] at hframe hkept
        exact ⟨hframe, hkept⟩

/-! ## Zip files -/

/-- `isZip64` of what a zip archive or the command has left. -/
theorem isZip64_zip (disk : OnDisk ZipFile) (h : onDisk files name = disk.map .zip) :
    isZip64 zip files name = (Libgetar.isZip64 zip.errorString disk).mapError .runtimeError := by
  unfold isZip64
  rw [h]
  cases disk <;> rfl

/-- A repair that raises nothing leaves what the command has left. -/
theorem repair_zip (zip : Zip) (files : Files ArchiveFile) (input tempName : Bytes)
    (h : (repair zip files input tempName).2 = none) :
    ∃ disk : OnDisk ZipFile, onDisk (repair zip files input tempName).1 tempName = disk.map .zip := by
  -- What is left when some files are deleted, or none.
  have hdelete {files : Files ArchiveFile} {before : OnDisk ZipFile}
      (hbefore : onDisk files tempName = before.map .zip) (zipLog : List Bytes) :
      ∃ disk : OnDisk ZipFile,
        onDisk (deleteBadFrames zip files tempName zipLog).1 tempName = disk.map .zip := by
    unfold deleteBadFrames
    split
    · exact ⟨before, hbefore⟩
    · simp only
      split
      · exact ⟨before, hbefore⟩
      · exact ⟨_, onDisk_leave _ _ _⟩
  unfold repair rebuildZip at h ⊢
  cases hrebuild : zip.rebuild files input tempName with
  | error e =>
    rw [hrebuild] at h
    cases h
  | ok rebuilt =>
    obtain ⟨disk, zipLog, returncode⟩ := rebuilt
    rw [hrebuild] at h
    simp only at h ⊢
    cases hdecode : unpy3str zipLog with
    | error e =>
      rw [hdecode] at h
      cases h
    | ok text =>
      rw [hdecode] at h
      simp only at h ⊢
      by_cases hcode : returncode ≠ 0 ∧ returncode ≠ 3
      · rw [if_pos hcode] at h
        cases h
      · rw [if_neg hcode]
        exact hdelete (onDisk_leave _ _ _) _

section

variable (zip : Zip) (p : Platform) (foreign : Foreign) (convert : Conversion)
  (env : Bytes → Surroundings)

/-- `gtar.copy` makes a file in the zip64 format of an archive, under the name of a zip file. -/
theorem copy_zip (hfuel : files.entries.length < fuel) {zip64 : Bool}
    (hinput : onDisk files input = .file (.zip (.zip archive zip64)))
    (hin : archiveFormat input = .zip) (hout : archiveFormat output = .zip) :
    ∃ files' raised,
      Cat.main (p.host foreign convert env) fuel files [input] output = some (files', raised) ∧
      (raised = none → IsZip64 files' output (copyOf archive input)) := by
  obtain ⟨tempName, htemp⟩ := exists_tempName hfuel output
  have hformat := (archiveFormat_newName htemp (Or.inr (Or.inl hout))).trans hout
  have hexist : Cat.Exist (p.host foreign convert env) files [input] fun _ => archive.entries := by
    refine List.forall_mem_singleton.mpr ?_
    rw [hinput]
    exact ⟨(fun h => by cases h), stores_zip foreign hin archive zip64⟩
  have hopen : ((p.host foreign convert env).format tempName).ofFile .write .absent ≠ none := by
    intro hnone
    have hcreated := (embeds_zip p foreign hformat).create.symm.trans hnone
    cases hcreated
  obtain ⟨files', raised, hmain⟩ := Cat.exists_main hexist htemp hopen
  refine ⟨files', raised, hmain, ?_⟩
  rintro rfl
  obtain ⟨-, -, -, -, hwritten⟩ := (Cat.main_success_iff hexist htemp).mp ⟨files', hmain, rfl⟩
  exact written_zip foreign hformat hwritten

/-- An input that is an archive is copied if it is not in the zip64 format. -/
theorem tryFix_opened (hfuel : files.entries.length < fuel) {zip64 : Bool}
    (hinput : onDisk files input = .file (.zip (.zip archive zip64)))
    (hin : archiveFormat input = .zip) (htemp : archiveFormat tempName = .zip) :
    ∃ files' pending, tryFix zip (p.host foreign convert env) fuel files false input tempName =
        some (files', pending) ∧
      (pending = none →
        if zip64 then files' = files else IsZip64 files' tempName (copyOf archive input)) := by
  have hzip64 : isZip64 zip files input = .ok zip64 :=
    isZip64_zip (.file (.zip archive zip64)) hinput
  unfold tryFix
  simp only [Bool.false_eq_true, if_false, hzip64]
  cases zip64 with
  | true => exact ⟨files, none, rfl, fun _ => rfl⟩
  | false =>
    obtain ⟨files', raised, hcopy, hdone⟩ := copy_zip p foreign convert env hfuel hinput hin htemp
    exact ⟨files', raised, hcopy, hdone⟩

/-- An input that is not is rebuilt, and copied if the command does not make a file in the zip64
format. -/
theorem tryFix_broken (hfuel : files.entries.length + 1 < fuel) (input : Bytes)
    (htemp : archiveFormat tempName = .zip) :
    ∃ files' pending, tryFix zip (p.host foreign convert env) fuel files true input tempName =
        some (files', pending) ∧
      (pending = none → ∃ entries, IsZip64 files' tempName entries) := by
  have hlength : (repair zip files input tempName).1.entries.length ≤ files.entries.length + 1 :=
    length_le_of_agree fun name hne => repair_agree zip files input hne
  have hleft := repair_zip zip files input tempName
  unfold tryFix
  simp only [if_true]
  generalize repair zip files input tempName = repaired at hlength hleft ⊢
  obtain ⟨files₁, pending⟩ := repaired
  cases pending with
  | some e => exact ⟨files₁, some e, rfl, fun h => by cases h⟩
  | none =>
    obtain ⟨disk, hdisk⟩ := hleft rfl
    have hfuel₁ : files₁.entries.length < fuel := hlength.trans_lt hfuel
    simp only [isZip64_zip disk hdisk]
    have hbroken (hnot : ∀ archive zip64, disk ≠ .file (.zip archive zip64)) :
        ∃ e, Libgetar.isZip64 zip.errorString disk = .error e := by
      unfold Libgetar.isZip64
      split
      · next archive zip64 => exact absurd rfl (hnot archive zip64)
      · exact ⟨_, rfl⟩
    by_cases hzip : ∃ archive zip64, disk = .file (.zip archive zip64)
    · -- What the command has left is copied over itself, unless it is in the zip64 format.
      obtain ⟨archive, zip64, rfl⟩ := hzip
      cases zip64 with
      | true => exact ⟨files₁, none, rfl, fun _ => ⟨_, archive, hdisk, rfl⟩⟩
      | false =>
        obtain ⟨files', raised, hcopy, hdone⟩ := copy_zip p foreign convert env hfuel₁ hdisk htemp htemp
        exact ⟨files', raised, hcopy, fun h => ⟨_, hdone h⟩⟩
    · obtain ⟨e, he⟩ := hbroken fun archive zip64 h => hzip ⟨archive, zip64, h⟩
      rw [he]
      exact ⟨files₁, _, rfl, fun h => by cases h⟩

/-- An input that is an archive is opened, and one that is not raises an exception. -/
theorem openFile_zip (hin : archiveFormat input = .zip)
    (hinput : ∀ f, onDisk files input = .file f → ∃ f', f = .zip f') :
    (∃ archive zip64 inp, onDisk files input = .file (.zip (.zip archive zip64)) ∧
        Cat.openFile (p.host foreign convert env) files .read input = .ok inp) ∨
      (∀ archive zip64, onDisk files input ≠ .file (.zip (.zip archive zip64))) ∧
        ∃ e, Cat.openFile (p.host foreign convert env) files .read input = .error (.raises e) := by
  have hmode (disk : OnDisk ArchiveFile) : Gtar.realMode .read disk = .read := rfl
  unfold Cat.openFile Gtar.ofFile
  simp only [Platform.host, gtarFormat, hin, hmode]
  cases hdisk : onDisk files input with
  | absent => exact Or.inr ⟨(fun _ _ h => by cases h), _, rfl⟩
  | empty => exact Or.inr ⟨(fun _ _ h => by cases h), _, rfl⟩
  | file f =>
    obtain ⟨f', rfl⟩ := hinput f hdisk
    cases f' with
    | zip archive zip64 => exact Or.inl ⟨archive, zip64, _, rfl, rfl⟩
    | other => exact Or.inr ⟨(fun _ _ h => by cases h), _, rfl⟩

/-! ## The whole program -/

/-- What was made of an input is in the place of the output, if nothing is raised and the output was not
the input and in the zip64 format. -/
theorem fix_made {host : Host Archive Surroundings ArchiveFile} {needsFix : Bool}
    {Made : Files ArchiveFile → Bytes → Prop} (hfuel : files.entries.length < fuel)
    (hout : archiveFormat output = .zip)
    (htry : ∀ tempName, archiveFormat tempName = .zip → ∃ files₁ pending,
      tryFix zip host fuel files needsFix input tempName = some (files₁, pending) ∧
        (pending = none → Made files₁ tempName)) :
    ∃ files' raised, fix zip host fuel files needsFix input output = some (files', raised) ∧
      (raised = none →
        (input = output ∧ isZip64 zip files output = .ok true ∧ needsFix = false ∧ files' = files) ∨
        ∃ files₁ tempName, Made files₁ tempName ∧ files.get? tempName = none ∧
          files'.get? output = (files₁.get? tempName).or (files.get? output)) := by
  unfold fix
  split
  · -- The output is the input, and there is nothing to do.
    next hnothing =>
    obtain ⟨hopened, hsame, hzip64⟩ := hnothing
    have hself : input = output := by
      unfold samefile at hsame
      split at hsame
      · exact of_decide_eq_true (Except.ok.inj hsame)
      · cases hsame
    refine ⟨files, none, rfl, fun _ => Or.inl ⟨hself, hzip64, ?_, rfl⟩⟩
    simpa using hopened
  · split
    · -- There is no input.
      exact ⟨files, _, rfl, fun h => by cases h⟩
    · obtain ⟨tempName, htemp⟩ := exists_tempName hfuel output
      obtain ⟨hfresh, hname⟩ := tempNameFrom_spec htemp
      obtain ⟨files₁, pending, hfix, hmade⟩ :=
        htry tempName ((archiveFormat_newName htemp (Or.inr (Or.inl hout))).trans hout)
      obtain ⟨-, -, hdone⟩ := finishFixed_spec hfresh hname
        (fun name hne => tryFix_agree hfix hne) pending
      simp only [htemp, hfix, Option.map_some]
      refine ⟨_, _, rfl, fun hraised => Or.inr ⟨files₁, tempName, ?_, hfresh, (hdone hraised).2⟩⟩
      exact hmade (hdone hraised).1

/-- A file in the zip64 format that was moved. -/
theorem IsZip64.of_get? {files' : Files ArchiveFile} {entries : Store} (h : IsZip64 files tempName entries)
    {old : Option (Option ArchiveFile)} (hmoved : files'.get? output = (files.get? tempName).or old) :
    IsZip64 files' output entries := by
  obtain ⟨archive, hdisk, hentries⟩ := h
  refine ⟨archive, ?_, hentries⟩
  have hthere : files.get? tempName ≠ none := fun hnone => by
    rw [onDisk_eq_absent_iff.mpr hnone] at hdisk
    cases hdisk
  obtain ⟨f, hf⟩ := Option.ne_none_iff_exists'.mp hthere
  rw [hf, Option.some_or, ← hf] at hmoved
  rw [← hdisk]
  unfold onDisk
  rw [hmoved]

/-- With the names of zip files, `main` returns. -/
theorem main_zip (hfuel : files.entries.length + 1 < fuel)
    (hin : archiveFormat input ≠ .dir) (hout : archiveFormat output = .zip)
    (hinput : ∀ f, onDisk files input = .file f → ∃ f', f = .zip f') :
    ∃ files' raised,
      main zip (p.host foreign convert env) fuel files input output = some (files', raised) ∧
      (raised = none → Fixed files files' input output) := by
  unfold main
  by_cases hext : (lit ".tar").isSuffixOf input ∨ (lit ".sqlite").isSuffixOf input
  · rw [if_pos hext]
    exact ⟨files, _, rfl, fun h => by cases h⟩
  rw [if_neg hext]
  obtain ⟨htar, hsqlite⟩ := not_or.mp hext
  rw [List.isSuffixOf_iff_suffix] at htar hsqlite
  have hzip := archiveFormat_eq_zip htar (fun h => hin ((archiveFormat_iff input).2.1.mpr h)) hsqlite
  obtain ⟨archive, zip64, inp, hdisk, hopen⟩ | ⟨hnot, e, hopen⟩ := openFile_zip p foreign convert env
    hzip hinput
  · -- An archive is left as it is, or copied.
    have hfuel₁ := Nat.lt_of_succ_lt hfuel
    obtain ⟨files', raised, hfix, hdone⟩ := fix_made zip hfuel₁ hout fun tempName htemp =>
      tryFix_opened zip p foreign convert env hfuel₁ hdisk hzip htemp
    rw [hopen]
    refine ⟨files', raised, hfix, fun hraised => ?_⟩
    cases zip64 with
    | true =>
      have hnot (archive') : onDisk files input ≠ .file (.zip (.zip archive' false)) := by
        rw [hdisk]
        exact fun h => by cases h
      refine ⟨fun _ _ => ?_, fun _ h => absurd h (hnot _), fun h => absurd hdisk (h _ _)⟩
      obtain ⟨-, -, -, rfl⟩ | ⟨files₁, tempName, rfl, hfresh, hmoved⟩ := hdone hraised
      · rfl
      · rw [hmoved, hfresh, Option.none_or]
    | false =>
      have hnot (archive') : onDisk files input ≠ .file (.zip (.zip archive' true)) := by
        rw [hdisk]
        exact fun h => by cases h
      refine ⟨fun _ h => absurd h (hnot _), fun archive' h => ?_, fun h => absurd hdisk (h _ _)⟩
      obtain rfl : archive = archive' := by
        rw [hdisk] at h
        cases h
        rfl
      obtain ⟨rfl, hzip64, -, -⟩ | ⟨files₁, tempName, hmade, -, hmoved⟩ := hdone hraised
      · rw [isZip64_zip (.file (.zip archive false)) hdisk] at hzip64
        cases hzip64
      · exact IsZip64.of_get? hmade hmoved
  · -- What is no archive is repaired.
    obtain ⟨files', raised, hfix, hdone⟩ := fix_made zip (Nat.lt_of_succ_lt hfuel) hout
      fun tempName htemp => tryFix_broken zip p foreign convert env hfuel input htemp
    rw [hopen]
    refine ⟨files', raised, hfix, fun hraised => ⟨fun archive h => absurd h (hnot archive true),
      fun archive h => absurd h (hnot archive false), fun _ => ?_⟩⟩
    obtain ⟨-, -, hopened, -⟩ | ⟨files₁, tempName, ⟨entries, hmade⟩, -, hmoved⟩ := hdone hraised
    · cases hopened
    · exact ⟨entries, hmade.of_get? hmoved⟩

/-- `main` changes no file but the output, and if it raises anything, not the output either unless that
was not there. With the name of a zip file as output, and an input that is a zip file or none at all, it
returns, and if it raises nothing, the output is what it should be. -/
theorem main_safe (fuel : ℕ) (files : Files ArchiveFile) (input output : Bytes) :
    (∀ files' raised,
      main zip (p.host foreign convert env) fuel files input output = some (files', raised) →
      (∀ name ≠ output, files'.get? name = files.get? name) ∧
        (raised ≠ none → files.get? output ≠ none → files'.get? output = files.get? output)) ∧
    (archiveFormat input ≠ .dir → archiveFormat output = .zip →
      (∀ f, onDisk files input = .file f → ∃ f', f = .zip f') → files.entries.length + 1 < fuel →
      ∃ files' raised,
        main zip (p.host foreign convert env) fuel files input output = some (files', raised) ∧
        (raised = none → Fixed files files' input output)) := by
  refine ⟨fun files' raised h => ?_, fun hin hout hinput hfuel =>
    main_zip zip p foreign convert env hfuel hin hout hinput⟩
  unfold main at h
  split at h
  · obtain ⟨rfl, rfl⟩ := Prod.mk.inj (Option.some.inj h)
    exact ⟨fun _ _ => rfl, fun _ _ => rfl⟩
  · split at h
    · cases h
    · exact fix_frame h
    · exact fix_frame h

end

end

/-- A file that is cut off in its second frame, and the output of an earlier run. -/
def cutOff : Files ArchiveFile where
  entries := [(lit "cut.zip", some (.zip .other)),
    (lit "fixed.zip", some (.zip (.zip ⟨[(lit "old", [])], by decide⟩ true)))]
  nodup := by decide

/-- The command makes another file of it, with a part of the frame. -/
def zipCutOff : Zip where
  rebuild _ _ _ := .ok
    (.file (.zip ⟨[(lit "frames/1/a", lit "one"), (lit "frames/2/a", lit "t")], by decide⟩ false),
      lit "Fix archive\n copying: frames/1/a  (3 bytes)\n copying: frames/2/a  (4294967295 bytes)\n", 3)
  delete files tempName names :=
    match onDisk files tempName with
    | .file (.zip (.zip archive zip64)) =>
      (.file (.zip ⟨archive.entries.filter fun e => !names.contains e.1,
        (List.length_filter_le _ _).trans_lt archive.count⟩ zip64), none)
    | _ => (.absent, some .calledProcessError)
  errorString := lit "invalid header or archive is corrupted"
  foreign _ := .error (lit "invalid header or archive is corrupted")

/-- The output is replaced by a file in the zip64 format, without that frame. -/
theorem main_safe_cutOff : ∃ files',
    main zipCutOff quietHost 5 cutOff (lit "cut.zip") (lit "fixed.zip") = some (files', none) ∧
      files'.get? (lit "cut.zip") = some (some (.zip .other)) ∧
      IsZip64 files' (lit "fixed.zip") [(lit "frames/1/a", lit "one")] := by
  obtain ⟨hframe, hzip⟩ := main_safe zipCutOff quietPlatform (fun _ _ _ => none)
    (fun _ _ => .error .valueError) quiet 5 cutOff (lit "cut.zip") (lit "fixed.zip")
  have hinput : ∀ f, onDisk cutOff (lit "cut.zip") = .file f → ∃ f', f = .zip f' := by
    rintro f hf
    cases hf
    exact ⟨_, rfl⟩
  obtain ⟨files', raised, hmain, hfixed⟩ :=
    hzip (by decide +kernel) (by decide +kernel) hinput (by decide)
  have hrun : (main zipCutOff quietHost 5 cutOff (lit "cut.zip") (lit "fixed.zip")).map (fun x =>
      (x.2, match onDisk x.1 (lit "fixed.zip") with
        | .file (.zip (.zip archive _)) => some archive.entries
        | _ => none)) = some (none, some [(lit "frames/1/a", lit "one")]) := by decide +kernel
  have hrun' := (congrArg _ hmain).symm.trans hrun
  rw [Option.map_some, Option.some.injEq, Prod.mk.injEq] at hrun'
  obtain ⟨rfl, hentries⟩ := hrun'
  obtain ⟨entries, archive, hdisk, rfl⟩ := (hfixed rfl).rebuilt fun archive zip64 h => by cases h
  rw [hdisk] at hentries
  exact ⟨files', hmain, (hframe files' none hmain).1 _ (by decide), archive, hdisk,
    Option.some.inj hentries⟩

end Fix

end Libgetar
