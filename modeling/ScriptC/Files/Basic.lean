/-!
Files as the compiler needs them: read as bytes, written as text, and refused with a reason.
-/

namespace ScriptC

inductive FileFault where
  | missing
  | isDirectory
  | notDirectory
  | nameTooLong
  | malformedName
  | other (reason : String)
  deriving DecidableEq, Repr

def FileFault.message : FileFault → String
  | .missing => "no such file or directory"
  | .isDirectory => "is a directory"
  | .notDirectory => "not a directory"
  | .nameTooLong => "file name too long"
  | .malformedName => "invalid argument"
  | .other reason => reason

inductive FileAction where
  | opening
  | reading
  | writing
  deriving DecidableEq, Repr

def FileAction.word : FileAction → String
  | .opening => "open"
  | .reading => "read"
  | .writing => "write"

structure FileError where
  action : FileAction
  path : String
  fault : FileFault
  deriving DecidableEq, Repr

def FileError.message (e : FileError) : String :=
  s!"{e.action.word} {e.path}: {e.fault.message}"

structure FileSystem (m : Type → Type) where
  read : String → m (Except FileError (List UInt8))
  write : String → String → m (Except FileError Unit)

end ScriptC
