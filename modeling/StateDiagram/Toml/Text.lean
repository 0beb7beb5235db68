import StateDiagram.Toml.Reader

/-! Quoted texts in their four forms, and keys. -/
namespace StateDiagram
namespace Toml

def numberedChar? (ds : List Char) : Option Char :=
  let n := digitsValue 16 ds
  if ds.all isHexadecimal && decide n.isValidChar then some (Char.ofNat n) else none

def escaped : Reader Char
  | 'b' :: rest => some ('\x08', rest)
  | 't' :: rest => some ('\t', rest)
  | 'n' :: rest => some ('\n', rest)
  | 'f' :: rest => some ('\x0c', rest)
  | 'r' :: rest => some ('\r', rest)
  | '"' :: rest => some ('"', rest)
  | '\\' :: rest => some ('\\', rest)
  | 'u' :: rest =>
    if 4 ≤ rest.length then (numberedChar? (rest.take 4)).map (·, rest.drop 4) else none
  | 'U' :: rest =>
    if 8 ≤ rest.length then (numberedChar? (rest.take 8)).map (·, rest.drop 8) else none
  | _ => none

/-- One character of a basic text on one line, which a double quote ends. -/
def basicRound : (s : List Char) → Round Char s
  | [] => .fail
  | '"' :: rest => .done rest
  | '\\' :: rest =>
    match escaped rest with
    | some (c, after) => .ofRest c after
    | none => .fail
  | c :: rest => if isPrintable c then .next c rest (by simp) else .fail

/-- A literal text on one line, which an apostrophe ends. -/
def literalBody (s : List Char) : Option (List Char × List Char) :=
  match s.span fun c => isPrintable c && c ≠ '\x27' with
  | (body, '\x27' :: rest) => some (body, rest)
  | _ => none

/-- The characters of a text over several lines that stand for themselves. -/
def plainRound (c : Char) (rest : List Char) : Round (List Char) (c :: rest) :=
  match newline? (c :: rest) with
  | some after => .ofRest ['\n'] after
  | none => if isPrintable c then .next [c] rest (by simp) else .fail

/-- A text over several lines ends at three marks in a row. One or two more may stand directly
before them. -/
def marksRound (c : Char) (rest : List Char) : Round (List Char) (c :: rest) :=
  match (rest.takeWhile (· = c)).length with
  | 2 => .done (rest.drop 2)
  | count => if count < 5 then .next [c] rest (by simp) else .fail

/-- A piece of a basic text over several lines. A backslash at the end of a line takes away the
line end and all blank space after it. -/
def basicLinesRound : (s : List Char) → Round (List Char) s
  | [] => .fail
  | '"' :: rest => marksRound '"' rest
  | '\\' :: rest =>
    match newline? (skipBlanks rest) with
    | some after => .ofRest [] (skipSpace after)
    | none =>
      match escaped rest with
      | some (c, after) => .ofRest [c] after
      | none => .fail
  | c :: rest => plainRound c rest
where
  /-- Pass over blanks and line ends. -/
  skipSpace : List Char → List Char
    | '\r' :: '\n' :: rest => skipSpace rest
    | '\n' :: rest => skipSpace rest
    | c :: rest => if isBlank c then skipSpace rest else c :: rest
    | [] => []

def literalLinesRound : (s : List Char) → Round (List Char) s
  | [] => .fail
  | '\x27' :: rest => marksRound '\x27' rest
  | c :: rest => plainRound c rest

def dropNewline (s : List Char) : List Char := (newline? s).getD s

/-- A quoted text in any of its four forms. A line end directly after the opening of a text
over several lines does not belong to it. -/
def text : Reader String
  | '"' :: '"' :: '"' :: rest =>
    (many basicLinesRound (dropNewline rest)).map fun r => (String.ofList r.1.flatten, r.2)
  | '"' :: rest => (many basicRound rest).map fun r => (String.ofList r.1, r.2)
  | '\x27' :: '\x27' :: '\x27' :: rest =>
    (many literalLinesRound (dropNewline rest)).map fun r => (String.ofList r.1.flatten, r.2)
  | '\x27' :: rest => (literalBody rest).map fun r => (String.ofList r.1, r.2)
  | _ => none

def isBare (c : Char) : Bool := c.isAlphanum || c = '_' || c = '-'

def keyPart : Reader String
  | '"' :: rest => (many basicRound rest).map fun r => (String.ofList r.1, r.2)
  | '\x27' :: rest => (literalBody rest).map fun r => (String.ofList r.1, r.2)
  | s =>
    match s.span isBare with
    | ([], _) => none
    | (part, rest) => some (String.ofList part, rest)

/-- A key, with the tables that lead to it. -/
structure KeyPath where
  parents : List String
  name : String
  deriving DecidableEq, Repr

/-- Keys have fewer parts than this, and values fewer levels. -/
def nestingLimit : Nat := 80

def KeyPath.ofParts : String → List String → KeyPath
  | part, [] => ⟨[], part⟩
  | part, next :: rest => let path := ofParts next rest; ⟨part :: path.parents, path.name⟩

def partRound (s : List Char) : Round String s :=
  match s with
  | '.' :: rest =>
    match keyPart (skipBlanks rest) with
    | some (part, after) => .ofRest part (skipBlanks after)
    | none => .fail
  | rest => .done rest

def keyPath (s : List Char) : Option (KeyPath × List Char) := do
  let (part, rest) ← keyPart (skipBlanks s)
  let (parts, rest) ← many partRound (skipBlanks rest)
  if parts.length + 1 < nestingLimit then some (.ofParts part parts, rest) else none

end Toml
end StateDiagram
