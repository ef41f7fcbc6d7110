import Libgetar.Lib.FStream
import Libgetar.Tar.Header

/-!
# The tar backend

`TarArchive` with its constructor, `writePtr`, `read` and `close`. The constructor scans the file
header by header (`Scan.step`); the loop has fuel, and `none` stands for a loop that is still
running. Everything that the scan computes with a `size_t` is taken modulo `sizeBound`.

Positions in the file are kept twice, once in the stream and once in `filePosition`, and `writePtr`
seeks only if the latter says so.
-/

namespace Libgetar

open Lib

/-- The first number that does not fit an `unsigned int`. -/
def uintBound : ℕ := 2 ^ 32

/-- A tar file that is open. -/
structure TarArchive where
  mode : OpenMode
  file : FStream
  /-- Where the archive takes the stream to be. -/
  filePosition : ℕ
  /-- Where the next record is written. -/
  maxPosition : ℕ
  /-- All the file names present in the file, in file order. -/
  fileNames : List Bytes
  /-- Map from filenames to offsets within the file. -/
  fileOffsets : StdMap Bytes ℕ bytesLt
  /-- Map from filenames to file sizes. -/
  fileSizes : StdMap Bytes ℕ bytesLt

namespace TarArchive

/-- `(n + 511)/512*512`. -/
def blockCeil (n : ℕ) : ℕ := (n + 511) % sizeBound / 512 * 512

/-! ## The constructor -/

/-- The variables of the scan loop. -/
structure Scan where
  file : FStream
  offset : ℕ := 0
  done : Bool := false
  fileNames : List Bytes := []
  fileOffsets : StdMap Bytes ℕ bytesLt := .empty
  fileSizes : StdMap Bytes ℕ bytesLt := .empty

namespace Scan

/-- The message for a block that is no header. -/
def magicMismatch (offset : ℕ) : Bytes :=
  lit "Error reading tar record at position " ++ numeral 10 offset ++
    lit ": magic mismatch (is this actually a tar file?)"

/-- An entry is recorded, and the stream goes to the next header. -/
def add (s : Scan) (file : FStream) (fileName : Bytes) (size : ℕ) : Scan :=
  let offset := (s.offset + (headerLength + blockCeil size)) % sizeBound
  { s with
    file := file.seekg offset
    offset := offset
    fileNames := s.fileNames ++ [fileName]
    fileOffsets := s.fileOffsets.insert fileName ((s.offset + headerLength) % sizeBound)
    fileSizes := s.fileSizes.insert fileName size }

/-- One iteration. Of a block that the file ends in, the rest is zero. -/
def step (s : Scan) : Except Bytes Scan :=
  let (got, file) := s.file.read headerLength
  let header : Bytes := got ++ List.replicate (headerLength - got.length) 0
  let magic := substr header magicOffset 6
  if magic.head? = some 0 then
    .ok { s with file := file, done := s.done || header.all (· == 0) }
  else if magic.take 5 ≠ lit "ustar" then
    if s.offset = 0 then .error (magicMismatch s.offset)
    else .ok { s with file := file, done := true }
  else .ok (s.add file (headerName header) (headerSize header))

/-- The loop. -/
def loop : ℕ → Scan → Option (Except Bytes Scan)
  | 0, _ => none
  | fuel + 1, s =>
    if !s.file.eof && !s.done then
      match s.step with
      | .error message => some (.error message)
      | .ok s => loop fuel s
    else some (.ok s)

end Scan

/-- `m_file.open`: the file has the contents `disk` if it exists. -/
def openFile (mode : OpenMode) (disk : Option Bytes) : Option FStream :=
  match mode, disk with
  | .write, _ => some { bytes := [], out := true }
  | .append, some bytes => some { bytes := bytes, out := true }
  | .read, some bytes => some { bytes := bytes, out := false }
  | _, none => none

/-- The message for a file that cannot be opened. -/
def openError (filename : Bytes) (mode : OpenMode) : Bytes :=
  lit "Error opening file " ++ filename ++ lit " for " ++
    match mode with
    | .write => lit "write"
    | .append => lit "append"
    | .read => lit "read"

/-- `m_maxPosition` behind the loop: the end of the entry that the maps have for the last name. -/
def Scan.maxPosition (s : Scan) : ℕ :=
  match s.fileNames.getLast? with
  | none => 0
  | some lastName =>
    ((s.fileOffsets.find? lastName).getD 0 +
      blockCeil ((s.fileSizes.find? lastName).getD 0)) % sizeBound

/-- What follows the loop. -/
def ofScan (mode : OpenMode) (s : Scan) : TarArchive :=
  let file := s.file.clear.seekg 0
  { mode := mode
    file := if mode = .append then file.seekp s.maxPosition else file
    filePosition := if mode = .append then s.maxPosition else 0
    maxPosition := s.maxPosition
    fileNames := s.fileNames
    fileOffsets := s.fileOffsets
    fileSizes := s.fileSizes }

/-- The constructor. -/
def ofFile (fuel : ℕ) (filename : Bytes) (mode : OpenMode) (disk : Option Bytes) :
    Option (Except Bytes TarArchive) :=
  match openFile mode disk with
  | none => some (.error (openError filename mode))
  | some file => (Scan.loop fuel { file := file }).map fun result => result.map (ofScan mode)

/-! ## An open archive -/

/-- The archive is closed with two empty blocks behind the last record. -/
def close (a : TarArchive) : TarArchive :=
  if a.file.isOpen then
    { a with file := ((a.file.seekp a.maxPosition).putN 0 1024).close }
  else a

/-- Seek to end if we aren't already there. -/
def seekToEnd (a : TarArchive) : TarArchive :=
  if a.filePosition ≠ a.maxPosition then
    { a with file := a.file.seekp a.maxPosition, filePosition := a.maxPosition }
  else a

/-- The message for a path whose prefix does not fit the header. -/
def nameTooLong (path : Bytes) : Bytes :=
  lit "Can't store file with name length " ++ numeral 10 path.length ++ lit "!"

/-- The bytes of a record: header, contents, and zeros up to the next block. -/
def writeRecord (header contents : Bytes) (file : FStream) : FStream :=
  let file := (file.write header).write contents
  if contents.length % 512 ≠ 0 then file.putN 0 (512 - contents.length % 512) else file

/-- `writePtr`. -/
def writePtr (a : TarArchive) (w : Write) (env : TarEnv) : TarArchive × Answer :=
  if a.mode = .read then (a, .threw (lit "Can't write to an archive opened for reading"))
  else
    let a := a.seekToEnd
    let (pathPrefix, name) := splitPath w.path
    let byteLength := w.contents.length
    if 154 < pathPrefix.length then (a, .threw (nameTooLong w.path))
    else
      let header := TarHeader.ofEntry pathPrefix name byteLength env
      let file := writeRecord header.toBytes w.contents a.file
      let deltaSize := (headerLength + blockCeil byteLength) % sizeBound
      ({ a with
          file := if w.immediate then file.flush else file
          filePosition := a.filePosition + deltaSize
          maxPosition := a.maxPosition + deltaSize
          fileNames := a.fileNames ++ [w.path]
          fileOffsets := a.fileOffsets.insert w.path ((a.maxPosition + headerLength) % sizeBound)
          fileSizes := a.fileSizes.insert w.path byteLength }, .done)

/-- `read`: what the stream does not deliver stays as `new char[size]` left it. -/
def read (a : TarArchive) (path : Bytes) (env : TarEnv) : TarArchive × Option Bytes :=
  match a.fileOffsets.find? path with
  | none => (a, none)
  | some off =>
    let size := (a.fileSizes.find? path).getD 0
    let (got, file) := (a.file.seekg off).read size
    ({ a with file := file, filePosition := off + size },
      some (got ++ ((List.range size).map env.fresh).drop got.length))

/-- One call. -/
def step (a : TarArchive) (c : Call × TarEnv) : TarArchive × Answer :=
  match c with
  | (.writePtr w, env) => a.writePtr w env
  | (.read path, env) => ((a.read path env).1, .array (a.read path env).2)

/-- `size`. -/
def size (a : TarArchive) : ℕ := a.fileNames.length % uintBound

/-- `getItemName`. -/
def getItemName (a : TarArchive) (index : ℕ) : Option Bytes := a.fileNames[index]?

end TarArchive

end Libgetar
