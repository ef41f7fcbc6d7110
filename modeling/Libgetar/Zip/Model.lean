import Libgetar.Archive

/-!
# Zip archives

`ZipArchive` of `src/ZipArchive.cpp`. The file is kept by miniz, of which the class uses that an
archive is a list of entries: their number, their names, the contents of each, and that a successful
addition appends one. Names are passed to miniz as C strings. The class itself keeps a map from every
path to the index of the last entry with this name, which it fills when the file is opened and brings
up to date after every addition.

There are at most `MZ_UINT32_MAX` entries, which the archive of miniz carries as a field. Whether an
addition fails for another reason comes from the environment.
-/

namespace Libgetar

open Lib

/-- `mz_zip_archive`. -/
structure MzZipArchive where
  /-- The names and contents of the entries, in the order of the central directory. -/
  entries : List (Bytes × Bytes)
  /-- The number of entries fits in an `mz_uint32`. -/
  count : entries.length < 2 ^ 32

/-- What a call gets from elsewhere. -/
structure ZipEnv where
  /-- Why miniz does not add an entry, unless it does. -/
  error : Option Bytes := none

namespace MzZipArchive

/-- `mz_zip_writer_add_mem`, with the error string if it fails. -/
def writerAddMem (z : MzZipArchive) (name contents : Bytes) (env : ZipEnv) :
    MzZipArchive × Option Bytes :=
  match env.error with
  | some message => (z, some message)
  | none =>
    if h : z.entries.length + 1 < 2 ^ 32 then
      (⟨z.entries ++ [(name, contents)], by rw [List.length_append]; exact h⟩, none)
    else (z, some (lit "too many files"))

/-- `mz_zip_reader_get_num_files`. -/
def readerGetNumFiles (z : MzZipArchive) : ℕ := z.entries.length

/-- `mz_zip_reader_get_filename`. -/
def readerGetFilename (z : MzZipArchive) (index : ℕ) : Option Bytes := z.entries[index]?.map Prod.fst

/-- `mz_zip_reader_extract_to_mem`. -/
def readerExtract (z : MzZipArchive) (index : ℕ) : Option Bytes := z.entries[index]?.map Prod.snd

end MzZipArchive

/-- A zip archive. -/
structure ZipArchive where
  /-- How we're accessing the archive. -/
  mode : OpenMode
  /-- Stored miniz archive object. -/
  archive : MzZipArchive
  /-- Stored map of path -> last archive index that contains the path. -/
  pathMap : StdMap Bytes ℕ bytesLt

namespace ZipArchive

/-- `size`, an `unsigned int`. -/
def size (a : ZipArchive) : ℕ := a.archive.readerGetNumFiles

/-- `getItemName`. -/
def getItemName (a : ZipArchive) (index : ℕ) : Bytes := (a.archive.readerGetFilename index).getD []

/-- `fillPathMap`. -/
def fillPathMap (a : ZipArchive) : ZipArchive :=
  { a with
    pathMap := (List.range a.size).foldl (fun m i => m.insert (a.getItemName i) i) a.pathMap }

/-- The constructor, behind the calls of miniz that open the file. A new file has no entries. -/
def ofArchive (mode : OpenMode) (archive : MzZipArchive) : ZipArchive :=
  fillPathMap ⟨mode, archive, .empty⟩

/-- `writePtr`. -/
def writePtr (a : ZipArchive) (w : Write) (env : ZipEnv) : ZipArchive × Answer :=
  if a.mode = .read then (a, .threw (lit "Can't write to an archive opened for reading"))
  else
    match a.archive.writerAddMem (cStr w.path) w.contents env with
    | (_, some message) => (a, .threw (lit "Error adding a file to archive: " ++ message))
    | (archive, none) =>
      let a := { a with archive := archive }
      ({ a with pathMap := a.pathMap.insert w.path ((a.size + (2 ^ 32 - 1)) % 2 ^ 32) }, .done)

/-- `read`. -/
def read (a : ZipArchive) (path : Bytes) : Answer :=
  match a.pathMap.find? path with
  | none => .array none
  | some fileIndex =>
    match a.archive.readerExtract fileIndex with
    | some result => .array (some result)
    | none => .threw (lit "Failed extracting file " ++ path ++ lit ": invalid parameter")

/-- One call. -/
def step (a : ZipArchive) : Call × ZipEnv → ZipArchive × Answer
  | (.writePtr w, env) => a.writePtr w env
  | (.read path, _) => (a, a.read path)

end ZipArchive

end Libgetar
