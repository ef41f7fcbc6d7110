import Libgetar.Lib.Bytes
import Libgetar.Lib.Compare
import Libgetar.Lib.StdMap
import Libgetar.Record.Model
import Libgetar.Record.Name
import Libgetar.Record.Decode
import Libgetar.Record.RoundTrip
import Libgetar.Record.Paths
import Libgetar.Archive
import Libgetar.Lib.FStream
import Libgetar.Lib.Numeral
import Libgetar.Tar.Header
import Libgetar.Tar.Model
import Libgetar.Tar.Layout
import Libgetar.Tar.Scan
import Libgetar.Tar.Session
import Libgetar.Tar.Reopen
import Libgetar.Tar.Names
import Libgetar.Sqlite.Chunk
import Libgetar.Sqlite.Connection
import Libgetar.Sqlite.Model
import Libgetar.Sqlite.Tables
import Libgetar.Sqlite.Refine
import Libgetar.Sqlite.Literal
import Libgetar.Sqlite.ReadBack
import Libgetar.Sqlite.Failure
import Libgetar.Catalogue.Gtar
import Libgetar.Catalogue.Run
import Libgetar.Catalogue.Read
import Libgetar.Tar.Fields
import Libgetar.Lib.Orbit
import Libgetar.Tar.Walk
import Libgetar.Sqlite.Reads
import Libgetar.Sqlite.Pieces
import Libgetar.Sqlite.Codes
import Libgetar.SharedArray
import Libgetar.Lib.FileTree
import Libgetar.Dir.Model
import Libgetar.Dir.Reopen
import Libgetar.Tar.Salvage
import Libgetar.Lib.Attempt
import Libgetar.Lib.Dict
import Libgetar.Lib.Utf8
import Libgetar.Python.Cat
import Libgetar.Python.Copies
import Libgetar.Catalogue.Frames
import Libgetar.Python.Frames
import Libgetar.Record.Order
import Libgetar.Tar.Offsets
import Libgetar.Zip.Index
import Libgetar.Zip.Model
import Libgetar.Sqlite.Bulk
import Libgetar.Python.Named
import Libgetar.Python.Richcmp
import Libgetar.Catalogue.Sessions
import Libgetar.Tar.Format
import Libgetar.Sqlite.Format
import Libgetar.Zip.Format
import Libgetar.Dir.Session
import Libgetar.Catalogue.Formats
import Libgetar.Sqlite.Crash
import Libgetar.Lib.Endian
import Libgetar.Catalogue.Typed
import Libgetar.Ownership
import Libgetar.Python.RoundTrip
import Libgetar.Python.Static
import Libgetar.Python.Fix
import Libgetar.Lib.Locks
import Libgetar.Sqlite.Statements
import Libgetar.Sqlite.Shared
import Libgetar.Sqlite.Deadlock
import Libgetar.Sqlite.Programs
import Libgetar.Sqlite.Serial
