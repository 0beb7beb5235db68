/-! Reading a text from its front: what a reader is, how one is repeated, and what may stand
between the words of a configuration text. -/
namespace StateDiagram
namespace Toml

/-- A reader takes characters off the front and gives back the rest, or refuses. -/
abbrev Reader (α : Type) := List Char → Option (α × List Char)

/-- What one round of a repeated reading did with the text `s`. -/
inductive Round (α : Type) (s : List Char)
  | fail
  /-- Nothing more is to be read. -/
  | done (rest : List Char)
  /-- One more element was read, and it is the last one. -/
  | last (element : α) (rest : List Char)
  /-- One more element was read, and less text is left. -/
  | next (element : α) (rest : List Char) (h : rest.length < s.length)

def Round.ofRest {α : Type} {s : List Char} (element : α) (rest : List Char) : Round α s :=
  if h : rest.length < s.length then .next element rest h else .fail

def many {α : Type} (round : (s : List Char) → Round α s) (s : List Char) :
    Option (List α × List Char) :=
  match round s with
  | .fail => none
  | .done rest => some ([], rest)
  | .last a rest => some ([a], rest)
  | .next a rest _ => (many round rest).map fun r => (a :: r.1, r.2)
termination_by s.length

def isBlank (c : Char) : Bool := c = ' ' || c = '\t'

/-- Characters that may stand in comments, and in texts apart from the marks of these. -/
def isPrintable (c : Char) : Bool := c = '\t' || (0x20 ≤ c.toNat && c.toNat ≠ 0x7f)

def skipBlanks (s : List Char) : List Char := s.dropWhile isBlank

/-- What follows a line feed, with or without a carriage return before it. -/
def newline? : List Char → Option (List Char)
  | '\n' :: rest => some rest
  | '\r' :: '\n' :: rest => some rest
  | _ => none

def skipComment : List Char → List Char
  | '#' :: rest => rest.dropWhile isPrintable
  | s => s

/-- What follows the rest of a line that holds nothing more than a comment. -/
def lineEnd? (s : List Char) : Option (List Char) :=
  match skipComment (skipBlanks s) with
  | [] => some []
  | rest => newline? rest

def skipLines (s : List Char) : List Char :=
  let rest := skipComment (skipBlanks s)
  match newline? rest with
  | none => rest
  | some after => if after.length < s.length then skipLines after else after
termination_by s.length

/-- A digit and all digits after it; an underscore may stand between two digits. -/
def moreDigits (isDigit : Char → Bool) : List Char → List Char × List Char
  | [] => ([], [])
  | [c] => if isDigit c then ([c], []) else ([], [c])
  | c :: d :: rest =>
    if isDigit c then
      let r := moreDigits isDigit (d :: rest)
      (c :: r.1, r.2)
    else if c = '_' && isDigit d then
      let r := moreDigits isDigit rest
      (d :: r.1, r.2)
    else ([], c :: d :: rest)

def digits (isDigit : Char → Bool) : Reader (List Char)
  | [] => none
  | c :: rest =>
    if isDigit c then
      let r := moreDigits isDigit rest
      some (c :: r.1, r.2)
    else none

def digitValue (c : Char) : Nat :=
  if c ≤ '9' then c.toNat - 48 else if c ≤ 'F' then c.toNat - 55 else c.toNat - 87

def isBinary (c : Char) : Bool := c = '0' || c = '1'
def isOctal (c : Char) : Bool := '0' ≤ c && c ≤ '7'
def isDecimal (c : Char) : Bool := '0' ≤ c && c ≤ '9'
def isHexadecimal (c : Char) : Bool :=
  isDecimal c || ('a' ≤ c && c ≤ 'f') || ('A' ≤ c && c ≤ 'F')

def digitsValue (base : Nat) (ds : List Char) : Nat :=
  ds.foldl (fun n c => n * base + digitValue c) 0

end Toml
end StateDiagram
