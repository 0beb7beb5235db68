import StateDiagram.Text.Literal

/-! What the file system answers when an access fails, and the wording of each answer. -/
namespace StateDiagram

inductive FileErrorKind
  | notFound | permissionDenied | alreadyExists | notADirectory | isADirectory
  | invalidFilename | invalidInput | invalidData | unexpectedEof | other
  deriving DecidableEq, Repr

namespace FileErrorKind

def all : List FileErrorKind :=
  [notFound, permissionDenied, alreadyExists, notADirectory, isADirectory, invalidFilename,
    invalidInput, invalidData, unexpectedEof, other]

def name : FileErrorKind → String
  | notFound => "NotFound"
  | permissionDenied => "PermissionDenied"
  | alreadyExists => "AlreadyExists"
  | notADirectory => "NotADirectory"
  | isADirectory => "IsADirectory"
  | invalidFilename => "InvalidFilename"
  | invalidInput => "InvalidInput"
  | invalidData => "InvalidData"
  | unexpectedEof => "UnexpectedEof"
  | other => "Other"

def text : FileErrorKind → String
  | notFound => "entity not found"
  | permissionDenied => "permission denied"
  | alreadyExists => "entity already exists"
  | notADirectory => "not a directory"
  | isADirectory => "is a directory"
  | invalidFilename => "invalid filename"
  | invalidInput => "invalid input parameter"
  | invalidData => "invalid data"
  | unexpectedEof => "unexpected end of file"
  | other => "other error"

end FileErrorKind

/-- The numbered answers of the operating system. -/
inductive SystemError
  | notPermitted | noEntry | accessDenied | entryExists | notDirectory | isDirectory | nameTooLong
  deriving DecidableEq, Repr

namespace SystemError

def all : List SystemError :=
  [notPermitted, noEntry, accessDenied, entryExists, notDirectory, isDirectory, nameTooLong]

def code : SystemError → Nat
  | notPermitted => 1
  | noEntry => 2
  | accessDenied => 13
  | entryExists => 17
  | notDirectory => 20
  | isDirectory => 21
  | nameTooLong => 36

def kind : SystemError → FileErrorKind
  | notPermitted => .permissionDenied
  | noEntry => .notFound
  | accessDenied => .permissionDenied
  | entryExists => .alreadyExists
  | notDirectory => .notADirectory
  | isDirectory => .isADirectory
  | nameTooLong => .invalidFilename

def text : SystemError → String
  | notPermitted => "Operation not permitted"
  | noEntry => "No such file or directory"
  | accessDenied => "Permission denied"
  | entryExists => "File exists"
  | notDirectory => "Not a directory"
  | isDirectory => "Is a directory"
  | nameTooLong => "File name too long"

end SystemError

inductive FileError
  /-- Only the kind is known. -/
  | plain (kind : FileErrorKind)
  | custom (kind : FileErrorKind) (message : String)
  | system (error : SystemError)
  /-- The path holds the character that ends names. -/
  | nulInPath
  /-- The file was read, but its bytes are no text. -/
  | notText
  deriving DecidableEq, Repr

namespace FileError

def kind : FileError → FileErrorKind
  | plain k => k
  | custom k _ => k
  | system e => e.kind
  | nulInPath => .invalidInput
  | notText => .invalidData

def message : FileError → String
  | plain k => k.text
  | custom _ m => m
  | system e => s!"{e.text} (os error {e.code})"
  | nulInPath => "file name contained an unexpected NUL byte"
  | notText => "stream did not contain valid UTF-8"

def details : FileError → String
  | plain k => s!"Kind({k.name})"
  | custom k m => s!"Custom \x7b kind: {k.name}, error: {Text.literal m} \x7d"
  | system e =>
    s!"Os \x7b code: {e.code}, kind: {e.kind.name}, message: {Text.literal e.text} \x7d"
  | e => s!"Error \x7b kind: {e.kind.name}, message: {Text.literal e.message} \x7d"

end FileError
end StateDiagram
