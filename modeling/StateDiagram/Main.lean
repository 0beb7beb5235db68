import StateDiagram.Arguments

/-! The program itself, on the files and streams of the operating system. -/
namespace StateDiagram

def FileError.ofSystem (e : IO.Error) : FileError :=
  match e with
  | .noFileOrDirectory .. => .system .noEntry
  | .permissionDenied _ code _ =>
    if code = SystemError.notPermitted.code.toUInt32 then .system .notPermitted
    else .system .accessDenied
  | .alreadyExists .. => .system .entryExists
  | .inappropriateType _ code _ =>
    if code = SystemError.isDirectory.code.toUInt32 then .system .isDirectory
    else .system .notDirectory
  | .invalidArgument _ code _ =>
    if code = SystemError.nameTooLong.code.toUInt32 then .system .nameTooLong
    else .custom .invalidInput (toString e)
  | .unexpectedEof => .plain .unexpectedEof
  | e => .custom .other (toString e)

def systemFiles : FileAccess String IO where
  read path := do
    try
      return .ok (← IO.FS.readBinFile path).toList
    catch e => return .error (.ofSystem e)
  write path text := do
    try
      IO.FS.writeFile path text
      return .ok ()
    catch e => return .error (.ofSystem e)

end StateDiagram

open StateDiagram in
def main (arguments : List String) : IO UInt32 := do
  let outcome ← execute standardTools systemFiles arguments
  (← IO.getStdout).putStr outcome.stdout
  (← IO.getStderr).putStr outcome.stderr
  return outcome.exitCode
