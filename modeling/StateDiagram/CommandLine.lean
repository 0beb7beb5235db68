import StateDiagram.Request

/-! The command line: what is done about the arguments. How they are parsed, and how a description
is read, is left to the tools of a run. -/
namespace StateDiagram

/-- A drawing that the arguments ask for. -/
structure Command (π : Type) where
  input : π
  /-- The id of the node to start from, instead of the described one. -/
  root : Option String
  layout : LayoutFlags
  /-- The file for the drawing. Without one it goes to standard output. -/
  output : Option String
  deriving DecidableEq, Repr

def Command.request {π : Type} (c : Command π) : Request π :=
  ⟨c.input, c.root, c.layout.layout⟩

inductive Notice
  /-- What the arguments ask for, such as help. -/
  | information (text : String)
  | misuse (text : String)
  deriving DecidableEq, Repr

/-- What a run of the program is given to read arguments of type `α` and descriptions with. -/
structure Tools (α π : Type) where
  command : List α → Except Notice (Command π)
  description : Description.Reader

inductive Outcome
  | noticed (notice : Notice)
  /-- The document went to standard output. -/
  | shown (text : String)
  /-- The document went to a file. -/
  | saved
  | failed (fault : RequestFault)
  deriving Repr

namespace Outcome

def exitCode : Outcome → UInt32
  | noticed (.information _) => 0
  | noticed (.misuse _) => 2
  | shown _ => 0
  | saved => 0
  | failed _ => 1

def stdout : Outcome → String
  | noticed (.information text) => text
  | shown text => text
  | _ => ""

def stderr : Outcome → String
  | noticed (.misuse text) => text
  | failed fault => s!"Error: {fault.failure.details}\n"
  | _ => ""

end Outcome

variable {α π : Type} [ToString π] {m : Type → Type} [Monad m]

/-- Do what the arguments ask for. A file is written only after all else has succeeded. -/
def execute (tools : Tools α π) (files : FileAccess π m) (arguments : List α) : m Outcome := do
  match tools.command arguments with
  | .error notice => return .noticed notice
  | .ok command =>
    match ← command.request.run tools.description files with
    | .error fault => return .failed fault
    | .ok text =>
      match command.output with
      | none => return .shown text
      | some path =>
        match ← Request.save files path text with
        | .error fault => return .failed fault
        | .ok () => return .saved

end StateDiagram
