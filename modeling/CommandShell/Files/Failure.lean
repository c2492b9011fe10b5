/-
# CommandShell.Files.Failure -- why a path cannot be used

The causes are those of the file system, with two that are found before it is asked or after it
answered: a text that holds the NUL character is no path, and a plain file is no place to work in.
-/

namespace CommandShell.Files

/-- The causes for which a path cannot be used. -/
inductive Failure where
  | noEntry
  | permissionDenied
  | notDirectory
  | isDirectory
  | nameTooLong
  | tooManyLinks
  /-- The path's text holds the NUL character. -/
  | nulInPath
  /-- A plain file was to become the working directory. -/
  | plainFile
  /-- The contents are no text. -/
  | notText
  deriving DecidableEq, Repr

/-- A cause as the file system reports it, with its number. -/
def systemText (phrase : String) (number : Nat) : String :=
  phrase ++ " (os error " ++ toString number ++ ")"

/-- The report of contents that are no UTF-8 text. -/
def notTextMessage : String := "stream did not contain valid UTF-8"

/-- The report of a cause. -/
def Failure.message : Failure → String
  | .noEntry => systemText "No such file or directory" 2
  | .permissionDenied => systemText "Permission denied" 13
  | .notDirectory => systemText "Not a directory" 20
  | .isDirectory => systemText "Is a directory" 21
  | .nameTooLong => systemText "File name too long" 36
  | .tooManyLinks => systemText "Too many levels of symbolic links" 40
  | .nulInPath => "file name contained an unexpected NUL byte"
  | .plainFile => "not a directory"
  | .notText => notTextMessage

end CommandShell.Files
