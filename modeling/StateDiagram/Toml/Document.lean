import StateDiagram.Toml.Moment
import StateDiagram.Toml.Number
import StateDiagram.Toml.Table

/-! Whole configuration texts. A text is read line by line into headers and keys with values,
which are then put together into one table. -/
namespace StateDiagram
namespace Toml

def elementRound (value : Reader Value) (s : List Char) : Round Value s :=
  match skipLines s with
  | ']' :: rest => .done rest
  | start =>
    match value start with
    | none => .fail
    | some (v, rest) =>
      match skipLines rest with
      | ',' :: rest => .ofRest v rest
      | ']' :: rest => .last v rest
      | _ => .fail

def keyValue (value : Reader Value) (s : List Char) :
    Option ((KeyPath × Value) × List Char) := do
  let (path, rest) ← keyPath s
  let (v, rest) ← value (skipBlanks (← after? '=' rest))
  some ((path, v), rest)

def pairRound (value : Reader Value) (s : List Char) : Round (KeyPath × Value) s :=
  match keyValue value s with
  | none => .fail
  | some (pair, rest) =>
    match skipBlanks rest with
    | ',' :: rest => .ofRest pair rest
    | '}' :: rest => .last pair rest
    | _ => .fail

/-- What follows the opening of an inline table, all on one line. -/
def inlineTable (value : Reader Value) (s : List Char) : Option (Value × List Char) :=
  match skipBlanks s with
  | '}' :: rest => some (.table [], rest)
  | start => do
    let (pairs, rest) ← many (pairRound value) start
    let entries ← Entries.addKeys [] pairs
    some (.table (entriesToValues entries), rest)

def numberOrMoment (s : List Char) : Option (Value × List Char) :=
  match moment? s with
  | some rest => some (.moment, rest)
  | none =>
    match float s with
    | some (x, rest) => some (.float x, rest)
    | none => (integer s).map fun r => (.integer r.1, r.2)

/-- A value, in which arrays and tables hold values read by `nested`. -/
def valueOver (nested : Reader Value) (s : List Char) : Option (Value × List Char) :=
  match s with
  | '"' :: _ | '\x27' :: _ => (text s).map fun r => (.string r.1, r.2)
  | '[' :: rest => (many (elementRound nested) rest).map fun r => (.array r.1, r.2)
  | '{' :: rest => inlineTable nested rest
  | 't' :: 'r' :: 'u' :: 'e' :: rest => some (.boolean true, rest)
  | 'f' :: 'a' :: 'l' :: 's' :: 'e' :: rest => some (.boolean false, rest)
  | _ => numberOrMoment s

/-- A value of at most the given number of levels, not counting the one that is no array or
table. -/
def value : Nat → Reader Value
  | 0, s => if s.head? = some '[' ∨ s.head? = some '{' then none else valueOver (fun _ => none) s
  | levels + 1, s => valueOver (value levels) s

inductive Line
  | blank
  | key (path : KeyPath) (value : Value)
  | tableHeader (path : KeyPath)
  | elementHeader (path : KeyPath)
  deriving Repr

def line (s : List Char) : Option (Line × List Char) :=
  match skipBlanks s with
  | '[' :: '[' :: rest => do
    let (path, rest) ← keyPath rest
    let rest ← lineEnd? (← after? ']' (← after? ']' rest))
    some (.elementHeader path, rest)
  | '[' :: rest => do
    let (path, rest) ← keyPath rest
    let rest ← lineEnd? (← after? ']' rest)
    some (.tableHeader path, rest)
  | start =>
    match lineEnd? start with
    | some rest => some (.blank, rest)
    | none => do
      let (pair, rest) ← keyValue (value (nestingLimit - 1)) start
      some (.key pair.1 pair.2, ← lineEnd? rest)

def lineRound (s : List Char) : Round Line s :=
  match s with
  | [] => .done []
  | s =>
    match line s with
    | some (l, rest) => .ofRest l rest
    | none => .fail

structure Section where
  header : Line
  keys : List (KeyPath × Value)
  deriving Repr

/-- The keys in front of the first header, and the sections after them. -/
def sections : List Line → List (KeyPath × Value) × List Section
  | [] => ([], [])
  | l :: rest =>
    let (keys, later) := sections rest
    match l with
    | .blank => (keys, later)
    | .key path value => ((path, value) :: keys, later)
    | header => ([], ⟨header, keys⟩ :: later)

def addSection (root : Entries) (s : Section) : Option Entries :=
  match s.header with
  | .tableHeader path => root.addTable path s.keys
  | .elementHeader path => root.addElement path s.keys
  | _ => none

def assemble (lines : List Line) : Option Entries := do
  let (keys, later) := sections lines
  later.foldlM addSection (← Entries.addKeys [] keys)

/-- The table that a text describes, if the text is well formed. A byte-order mark in front is
passed over. -/
def parse (text : String) : Option (List (String × Value)) := do
  let body := match text.toList with
    | '\ufeff' :: rest => rest
    | s => s
  let (lines, _) ← many lineRound body
  return entriesToValues (← assemble lines)

end Toml
end StateDiagram
