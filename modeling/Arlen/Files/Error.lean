import Arlen.Lib.Bytes

/-!
# Errors of the file operations

`io::Error` as far as the operations of `apps/files/core/src/ops.rs` look at it,
and their own `OpError`. Names and paths are byte strings, as `OsString` is.
-/

namespace Arlen.Files

open Arlen.Lib

/-- One component of a path. -/
abbrev Name := Bytes

/-- A place in the tree that holds every capability: the names down to it. -/
abbrev Loc := List Name

inductive ErrorKind where
  | notFound
  | alreadyExists
  | invalidInput
  | invalidData
  | other
deriving DecidableEq, Repr

/-- The error numbers a call may end in. -/
inductive Errno where
  | enoent
  | eexist
  | enotempty
  | exdev
  | enotdir
  | eisdir
  | einval
  | eloop
  /-- A path that leads out of its capability. -/
  | escape
  | other (code : Nat)
deriving DecidableEq, Repr

/-- `io::Error`: one of the system, or one made of a kind and a message. -/
inductive IoError where
  | os (errno : Errno)
  | custom (kind : ErrorKind) (message : String)
deriving DecidableEq, Repr

/-- `io::Error::kind`. -/
def IoError.kind : IoError → ErrorKind
  | .os .enoent => .notFound
  | .os .eexist => .alreadyExists
  | .os .einval => .invalidInput
  | .os _ => .other
  | .custom kind _ => kind

inductive OpError where
  | alreadyExists (name : String)
  | invalidName (name : String)
  /-- A recursive copy or move that failed partway, with the root of what it left. -/
  | partialOutput (written : Loc) (source : IoError)
  | io (error : IoError)
deriving DecidableEq, Repr

end Arlen.Files
