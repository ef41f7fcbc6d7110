import Libgetar.Archive
import Libgetar.Lib.FileTree

/-!
# The directory backend

`DirArchive` with its constructor, `writePtr` and `read`. A record is a file below the base
directory, under a name that is the file name of the archive with the path behind it. The constructor
searches the base directory for files; the search has fuel, and `none` stands for one that is still
running.

The mode of compression and `immediate` are not looked at.
-/

namespace Libgetar

open Lib

/-- What a call takes from its surroundings. -/
structure DirEnv where
  /-- `strerror(errno)` behind a call that has failed on a file name. -/
  strerror : FileTree → Bytes → Bytes := fun _ _ => []
  /-- The entries of a directory, in the order in which `readdir` has them. -/
  readdir : FileTree → List Bytes → List Bytes := fun fs p => lit "." :: lit ".." :: fs.children p
  /-- They are the nodes in it, itself and the directory above it. -/
  readdir_perm : ∀ fs p, (readdir fs p).Perm (lit "." :: lit ".." :: fs.children p) := by
    exact fun _ _ => List.Perm.refl _
  /-- What the bits of `st_mode` say before a `stat` has filled it. -/
  freshStat : Option Node := none
  /-- How `read` ends on a directory, by the size that the file system tells. -/
  readDirectory : Answer := .threw badAlloc

/-- A directory that is open. -/
structure DirArchive where
  /-- The base name in front of every path. -/
  filename : Bytes
  mode : OpenMode
  /-- The directories that `writePtr` has already created. -/
  createdDirectories : List Bytes
  /-- All the file names. -/
  fileNames : List Bytes
deriving DecidableEq

namespace DirArchive

variable (env : DirEnv)

/-! ## The constructor -/

/-- The message for a directory that cannot be searched. -/
def openingDirectory (fs : FileTree) (path : Bytes) : Bytes :=
  lit "Error opening directory " ++ path ++ lit ": " ++ env.strerror fs path

/-- The loop over the entries of the directory `path`, where `search` goes into the directories among
them. A `stat` that fails leaves `curStat` as it is. -/
def searchEntries (search : Bytes → List Bytes → Option (Except Bytes (List Bytes)))
    (fs : FileTree) (path : Bytes) :
    List Bytes → Option Node → List Bytes → Option (Except Bytes (List Bytes))
  | [], _, fileNames => some (.ok fileNames)
  | name :: entries, curStat, fileNames =>
    if name = lit "." ∨ name = lit ".." then searchEntries search fs path entries curStat fileNames
    else
      let entName := path ++ separator :: name
      match (fs.lookup entName).or curStat with
      | some .dir =>
        match search entName fileNames with
        | some (.ok fileNames) => searchEntries search fs path entries (some .dir) fileNames
        | result => result
      | some (.file contents) =>
        searchEntries search fs path entries (some (.file contents)) (fileNames ++ [entName])
      | none => searchEntries search fs path entries none fileNames

/-- `searchDirectory`. -/
def searchDirectory (fs : FileTree) :
    ℕ → Bytes → List Bytes → Option (Except Bytes (List Bytes))
  | 0, _, _ => none
  | fuel + 1, path, fileNames =>
    match fs.opendir path with
    | none => some (.error (openingDirectory env fs path))
    | some p =>
      searchEntries (searchDirectory fs fuel) fs path (env.readdir fs p) env.freshStat fileNames

/-- The base name without the slashes at its end. -/
def stripped (filename : Bytes) : Bytes := filename.rdropWhile (· == separator)

/-- Make sure that the base directory exists. -/
def createBase (fs : FileTree) (filename : Bytes) (mode : OpenMode) : Except Bytes FileTree :=
  if mode = .read then .ok fs
  else
    match fs.lookup filename with
    | some .dir => .ok fs
    | some (.file _) => .error (lit "Error opening directory for write (file already exists)")
    | none => .ok (fs.mkdir filename)

/-- The constructor, with the file system that it leaves. -/
def ofFile (fuel : ℕ) (fs : FileTree) (filename : Bytes) (mode : OpenMode) :
    Option (Except Bytes (DirArchive × FileTree)) :=
  match createBase fs filename mode with
  | .error message => some (.error message)
  | .ok fs =>
    (searchDirectory env fs fuel (stripped filename) []).map fun result =>
      result.map fun fileNames => (⟨filename, mode, [], fileNames⟩, fs)

/-! ## An open archive -/

/-- The directory of a file is created, unless the archive has done that before. -/
def createParent (s : DirArchive × FileTree) (segment : Bytes) : DirArchive × FileTree :=
  if segment ∈ s.1.createdDirectories then s
  else
    ({ s.1 with createdDirectories := segment :: s.1.createdDirectories },
      s.2.mkdir (s.1.filename ++ segment))

/-- The loop over the slashes of a path, from `pos` on. -/
def createParents (path : Bytes) : ℕ → ℕ → DirArchive × FileTree → DirArchive × FileTree
  | 0, _, s => s
  | fuel + 1, pos, s =>
    match find path separator pos with
    | none => s
    | some i => createParents path fuel (i + 1) (createParent s (substr path 0 i))

/-- `writePtr`. -/
def writePtr (s : DirArchive × FileTree) (w : Write) : (DirArchive × FileTree) × Answer :=
  if s.1.mode = .read then (s, .threw (lit "Can't write to an archive opened for reading"))
  else
    let (a, fs) := createParents w.path (w.path.length + 1) 0 s
    match fs.writeFile (a.filename ++ w.path) w.contents with
    | none =>
      let message := env.strerror fs (a.filename ++ w.path)
      ((a, fs), .threw (lit "Error opening path for writing: " ++ message))
    | some fs => (({ a with fileNames := a.fileNames ++ [w.path] }, fs), .done)

/-- `read`. -/
def read (a : DirArchive) (fs : FileTree) (path : Bytes) : Answer :=
  match fs.lookup (a.filename ++ path) with
  | none => .array none
  | some (.file contents) => .array (some contents)
  | some .dir => env.readDirectory

/-- One call. -/
def step (s : DirArchive × FileTree) : Call → (DirArchive × FileTree) × Answer
  | .writePtr w => writePtr env s w
  | .read path => (s, read env s.1 s.2 path)

/-- `getItemName`. -/
def getItemName (a : DirArchive) (index : ℕ) : Option Bytes := a.fileNames[index]?

end DirArchive

end Libgetar
