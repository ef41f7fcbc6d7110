import Libgetar.Lib.Log
import Libgetar.Lib.Machine

/-!
# Archives

The interface that the backends share (`Archive.hpp`): the modes, the calls `writePtr` and `read`,
and how a call ends.

`Store` is what an archive is for, without any file behind it: the log of the accepted writes, where
a read gives the contents of the last write to its path. The backends are compared with it.
-/

namespace Libgetar

open Lib

/-- Modes in which a file is opened. -/
inductive OpenMode where
  | read
  | write
  | append
deriving DecidableEq

/-- Varying degrees to which files are compressed. -/
inductive CompressMode where
  | noCompress
  | fastCompress
  | mediumCompress
  | slowCompress
deriving DecidableEq

/-- The arguments of `writePtr`. -/
structure Write where
  path : Bytes
  contents : Bytes
  mode : CompressMode
  immediate : Bool := false
deriving DecidableEq

/-- The calls of an open archive that concern its contents. -/
inductive Call where
  | writePtr (w : Write)
  | read (path : Bytes)
deriving DecidableEq

/-- How a call ends. -/
inductive Answer where
  /-- `writePtr` has returned normally. -/
  | done
  /-- The call has thrown an exception, with this message. -/
  | threw (message : Bytes)
  /-- `read` has returned an array, where `none` is the null array. -/
  | array (contents : Option Bytes)
  /-- The call has copied past the end of a buffer. -/
  | overflow
deriving DecidableEq

/-- What `new char[n]` throws when there is no memory for so many bytes. -/
def badAlloc : Bytes := lit "std::bad_alloc"

/-- The call has returned normally. -/
def Answer.isNormal : Answer → Bool
  | .done => true
  | .array _ => true
  | .threw _ => false
  | .overflow => false

/-- The contents of an archive: every accepted write, the oldest first. -/
abbrev Store := List (Bytes × Bytes)

/-- One call, where `refuses` gives the message for the paths that the archive does not take. -/
def Store.step (refuses : Bytes → Option Bytes) (log : Store) : Call → Store × Answer
  | .writePtr w =>
    match refuses w.path with
    | some message => (log, .threw message)
    | none => (log ++ [(w.path, w.contents)], .done)
  | .read path => (log, .array (lastWrite log path))

end Libgetar
