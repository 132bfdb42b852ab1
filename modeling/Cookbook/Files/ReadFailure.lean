/-!
# Failed reads

Why a file cannot be read as text, with the wording of the operating system and its error number.
-/

namespace Cookbook

/-- Why a file cannot be read as text. -/
inductive ReadFailure where
  | notFound
  | isDirectory
  | notDirectory
  | nameTooLong
  /-- The path holds a null character. -/
  | nullInPath
  /-- The content is not UTF-8. -/
  | notText
  /-- A failure that only a real file system has, in its own words. -/
  | system (description : String)
  deriving DecidableEq, Repr

namespace ReadFailure

/-- The wording of a failure. -/
def message : ReadFailure → String
  | notFound => "No such file or directory (os error 2)"
  | isDirectory => "Is a directory (os error 21)"
  | notDirectory => "Not a directory (os error 20)"
  | nameTooLong => "File name too long (os error 36)"
  | nullInPath => "file name contained an unexpected NUL byte"
  | notText => "stream did not contain valid UTF-8"
  | system description => description

end ReadFailure

end Cookbook
