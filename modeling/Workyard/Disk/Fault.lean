/-!
# Faults of the disk

What can go wrong with an operation on files and directories.
-/

namespace Workyard.Disk

set_option autoImplicit false

inductive Fault where
  | notFound
  | notADirectory
  | isADirectory
  /-- The bytes of a file are no text. -/
  | notText
  | alreadyExists
  | notEmpty
  /-- A directory cannot move into itself. -/
  | invalid
  deriving DecidableEq, Repr

def Fault.message : Fault → String
  | notFound => "No such file or directory (os error 2)"
  | notADirectory => "Not a directory (os error 20)"
  | isADirectory => "Is a directory (os error 21)"
  | notText => "stream did not contain valid UTF-8"
  | alreadyExists => "File exists (os error 17)"
  | notEmpty => "Directory not empty (os error 39)"
  | invalid => "Invalid argument (os error 22)"

end Workyard.Disk
