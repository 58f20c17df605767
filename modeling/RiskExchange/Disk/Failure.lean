/-! # Failures — why an operation on files is refused -/

namespace RiskExchange.Disk

/-- Why an operation on files is refused. -/
inductive Failure where
  | notFound
  /-- Something that is no directory stands on the way. -/
  | notDirectory
  | isDirectory
  | alreadyExists
  | busy
  | nameTooLong
  | invalidArgument
  /-- A path holds the character NUL. -/
  | nulInPath
  /-- A text was asked for, and the bytes are none. -/
  | notText
  /-- Any other refusal, in the system's words. -/
  | other (message : String)
  deriving DecidableEq, Repr

/-- The wording of a failure. -/
def Failure.message : Failure → String
  | .notFound => "No such file or directory (os error 2)"
  | .notDirectory => "Not a directory (os error 20)"
  | .isDirectory => "Is a directory (os error 21)"
  | .alreadyExists => "File exists (os error 17)"
  | .busy => "Device or resource busy (os error 16)"
  | .nameTooLong => "File name too long (os error 36)"
  | .invalidArgument => "Invalid argument (os error 22)"
  | .nulInPath => "file name contained an unexpected NUL byte"
  | .notText => "stream did not contain valid UTF-8"
  | .other message => message

end RiskExchange.Disk
