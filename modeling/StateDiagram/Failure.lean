import StateDiagram.File.Error

/-! Failures as the user sees them: a kind, a message, the operation that gave up, what was
noted on the way, and the chain of causes. Naming a further operation keeps the earlier one
among the notes. -/
namespace StateDiagram

inductive ErrorKind
  | invalidArgument | configInvalid | deserializationFailed | graphBuildFailed | nodeNotFound
  | invariantViolation | fileNotFound | permissionDenied | ioFailed
  deriving DecidableEq, Repr

namespace ErrorKind

def all : List ErrorKind :=
  [invalidArgument, configInvalid, deserializationFailed, graphBuildFailed, nodeNotFound,
    invariantViolation, fileNotFound, permissionDenied, ioFailed]

def name : ErrorKind → String
  | invalidArgument => "InvalidArgument"
  | configInvalid => "ConfigInvalid"
  | deserializationFailed => "DeserializationFailed"
  | graphBuildFailed => "GraphBuildFailed"
  | nodeNotFound => "NodeNotFound"
  | invariantViolation => "InvariantViolation"
  | fileNotFound => "FileNotFound"
  | permissionDenied => "PermissionDenied"
  | ioFailed => "IoFailed"

/-- Whether the fault lies with whatever made the graph, and not with the user's input. -/
def isInternal (k : ErrorKind) : Bool := k = invariantViolation

def ofFile : FileErrorKind → ErrorKind
  | .notFound => fileNotFound
  | .permissionDenied => permissionDenied
  | _ => ioFailed

end ErrorKind

/-- What went wrong, leaving out what caused it. An empty operation is none. -/
structure Report where
  kind : ErrorKind
  message : String
  operation : String
  /-- Notes, in the order in which they were made. -/
  context : List (String × String)
  deriving DecidableEq, Repr

namespace Report

def summary (r : Report) : String :=
  let place := if r.operation = "" then "" else s!" at {r.operation}"
  let notes := String.intercalate ", " (r.context.map fun n => s!"{n.1}: {n.2}")
  let context := if r.context = [] then "" else s!", context \x7b {notes} \x7d"
  let message := if r.message = "" then "" else s!" => {r.message}"
  r.kind.name ++ place ++ context ++ message

def body (r : Report) : String :=
  let message := if r.message = "" then "" else s!"\n    Message: {r.message}\n"
  let notes := r.context.map fun n => s!"        {n.1}: {n.2}\n"
  let context := if r.context = [] then "" else "\n    Context:\n" ++ String.join notes
  s!"{r.kind.name} at {r.operation}\n" ++ message ++ context

end Report

inductive Cause
  | file (error : FileError)
  | report (report : Report)
  /-- A text that could not be read as data, with the reader's complaint. -/
  | unreadable (complaint : String)
  deriving DecidableEq, Repr

def Cause.summary : Cause → String
  | file e => e.message
  | report r => r.summary
  | unreadable complaint => complaint

/-- A report with its causes, the nearest first. -/
structure Failure extends Report where
  causes : List Cause
  deriving DecidableEq, Repr

namespace Failure

def new (kind : ErrorKind) (message : String) : Failure := ⟨⟨kind, message, "", []⟩, []⟩

/-- The key under which an operation is noted once another one takes its place. -/
def calledKey : String := "called"

/-- Name the operation that gave up; one named before is noted as called by it. -/
def during (f : Failure) (operation : String) : Failure :=
  { f with
    operation
    context := if f.operation = "" then f.context else f.context ++ [(calledKey, f.operation)] }

def noting (f : Failure) (key value : String) : Failure :=
  { f with context := f.context ++ [(key, value)] }

/-- The first value noted under a key. -/
def noted? (f : Failure) (key : String) : Option String := f.context.lookup key

/-- Put another failure, with its own causes, at the front of the chain. -/
def causedBy (f cause : Failure) : Failure :=
  { f with causes := .report cause.toReport :: cause.causes }

def causedByFile (f : Failure) (error : FileError) : Failure :=
  { f with causes := [.file error] }

def invalidArgument (message : String) : Failure := new .invalidArgument message
def configInvalid (message : String) : Failure := new .configInvalid message
def graphBuildFailed (message : String) : Failure := new .graphBuildFailed message
def invariantViolation (message : String) : Failure := new .invariantViolation message

def nodeNotFound (node : String) : Failure :=
  (new .nodeNotFound s!"node '{node}' not found").noting "node" node

def ofFile (error : FileError) : Failure :=
  ((new (.ofFile error.kind) error.message).during "io").causedByFile error

def causeLines : List Cause → String
  | [] => ""
  | .file e :: _ => s!"\n    Source: {e.details}\n"
  | .report r :: rest => s!"\n    Source: {r.body ++ causeLines rest}\n"
  | .unreadable complaint :: _ => s!"\n    Source: {complaint}\n"

def details (f : Failure) : String := f.body ++ causeLines f.causes

end Failure
end StateDiagram
