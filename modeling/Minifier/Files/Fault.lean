/-!
Why a file cannot be reached, read or written, in the words of the operating system.
-/

namespace Minifier

/-- A fault of a file operation. -/
inductive FileFault where
  /-- Nothing is there. -/
  | missing : FileFault
  /-- Something is there that must not be. -/
  | alreadyThere : FileFault
  /-- A file stands where a directory has to. -/
  | notDirectory : FileFault
  /-- A directory stands where a file has to. -/
  | isDirectory : FileFault
  /-- The bytes of the file are not text. -/
  | notText : FileFault
  /-- Anything else, in words. -/
  | other (problem : String) : FileFault
  deriving DecidableEq, Repr

/-- A fault in words. -/
def FileFault.message : FileFault → String
  | missing => "No such file or directory (os error 2)"
  | alreadyThere => "File exists (os error 17)"
  | notDirectory => "Not a directory (os error 20)"
  | isDirectory => "Is a directory (os error 21)"
  | notText => "stream did not contain valid UTF-8"
  | other problem => problem

end Minifier
