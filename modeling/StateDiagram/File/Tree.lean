import StateDiagram.File.Error
import StateDiagram.Text.Utf8

/-! A directory with files and directories in it, and what reading and writing through a path
does there. The directories that hold it are taken to hold nothing else. Writing changes at most
the file that the path leads to (`find?_put_of_ne`). -/
namespace StateDiagram

/-- What a program asks of the file system. Paths to read from need not be texts. -/
structure FileAccess (π : Type) (m : Type → Type) where
  /-- The bytes of the file at a path. -/
  read : π → m (Except FileError (List UInt8))
  /-- Make the file at a path hold a text, whether or not it is there. -/
  write : String → String → m (Except FileError Unit)

/-- Files and directories by the names that lead to them. -/
structure FileTree where
  files : List (List String × List UInt8)
  directories : List (List String)
  deriving Repr

namespace FileTree

def find? (t : FileTree) (place : List String) : Option (List UInt8) := t.files.lookup place

def top : List String := ["/"]

/-- Whether a place is the tree's directory or one of those that hold it. The way up to them is
their place. -/
def holdsTree (place : List String) : Bool := place = top || place.all (· = "..")

/-- The directory that holds a place. Nothing holds the topmost one but itself. -/
def parent (place : List String) : List String :=
  if place = top then top else if place.all (· = "..") then place ++ [".."] else place.dropLast

/-- A place is a directory if it is given as one or something lies below it. -/
def isDirectory (t : FileTree) (place : List String) : Bool :=
  holdsTree place || (t.directories ++ t.files.map (·.1.dropLast)).any (place.isPrefixOf ·)

inductive Spot
  | directory (place : List String)
  | file (place : List String) (bytes : List UInt8)
  /-- A name in a directory under which there is nothing. -/
  | free (place : List String)
  deriving Repr

/-- No name is longer than this, in bytes. -/
def longestName : Nat := 255

def longestPath : Nat := 4095

def look (t : FileTree) (here : List String) (name : String) : Except SystemError Spot :=
  if name = "." then .ok (.directory here)
  else if name = ".." then .ok (.directory (parent here))
  else if longestName < name.utf8ByteSize then .error .nameTooLong
  else
    let place := here ++ [name]
    if t.isDirectory place then .ok (.directory place)
    else
      match t.find? place with
      | some bytes => .ok (.file place bytes)
      | none => .ok (.free place)

/-- Follow names from a directory. Each name but the last must lead to a directory. -/
def walk (t : FileTree) (here : List String) : List String → Except SystemError Spot
  | [] => .ok (.directory here)
  | [name] => t.look here name
  | name :: next :: names =>
    match t.look here name with
    | .error e => .error e
    | .ok (.directory there) => t.walk there (next :: names)
    | .ok (.file ..) => .error .notDirectory
    | .ok (.free _) => .error .noEntry

/-- The names in a path; slashes in a row count as one. -/
def names (path : String) : List String :=
  ((path.toList.splitOn '/').filter (· ≠ [])).map String.ofList

def endsInSlash (path : String) : Bool := path.toList.getLast? = some '/'

/-- Where the names in a path are followed from: the topmost directory for a path that begins
with a slash, and that of the tree otherwise. -/
def start (path : String) : List String := if path.toList.head? = some '/' then top else []

/-- Follow the given names of a path, unless no path can look like that. -/
def locate (t : FileTree) (path : String) (names : List String) : Except FileError Spot :=
  if '\x00' ∈ path.toList then .error .nulInPath
  else if path = "" then .error (.system .noEntry)
  else if longestPath < path.utf8ByteSize then .error (.system .nameTooLong)
  else (t.walk (start path) names).mapError .system

def read (t : FileTree) (path : String) : Except FileError (List UInt8) :=
  match t.locate path (names path) with
  | .error e => .error e
  | .ok (.directory _) => .error (.system .isDirectory)
  | .ok (.file _ bytes) => if endsInSlash path then .error (.system .notDirectory) else .ok bytes
  | .ok (.free _) => .error (.system .noEntry)

def put (t : FileTree) (place : List String) (bytes : List UInt8) : FileTree :=
  { t with files := t.files.filter (·.1 ≠ place) ++ [(place, bytes)] }

theorem find?_put (t : FileTree) (place : List String) (bytes : List UInt8) :
    (t.put place bytes).find? place = some bytes := by
  have h : (t.files.filter (·.1 ≠ place)).lookup place = none := by
    rw [List.lookup_eq_none_iff]
    intro e he
    have := (List.mem_filter.mp he).2
    simp only [ne_eq, decide_not, Bool.not_eq_eq_eq_not, Bool.not_true,
      decide_eq_false_iff_not] at this
    simpa using fun heq => this heq.symm
  simp only [find?, put, List.lookup_append, h, List.lookup_cons, BEq.rfl, Option.none_or]

theorem find?_put_of_ne (t : FileTree) {place other : List String} (bytes : List UInt8)
    (h : other ≠ place) : (t.put place bytes).find? other = t.find? other := by
  have hb : (other == place) = false := beq_false_of_ne h
  have hf : ∀ files : List (List String × List UInt8),
      (files.filter (·.1 ≠ place)).lookup other = files.lookup other := by
    intro files
    induction files with
    | nil => rfl
    | cons e files ih =>
      obtain ⟨key, value⟩ := e
      by_cases hk : key = place
      · subst hk
        rw [List.filter_cons_of_neg (by simp), ih, List.lookup_cons, hb]
      · rw [List.filter_cons_of_pos (by simpa using hk), List.lookup_cons, List.lookup_cons, ih]
  simp only [find?, put, List.lookup_append, hf, List.lookup_cons, hb, List.lookup_nil,
    Option.or_none]

/-- The names in a path to a file that is to be written. A slash at the end asks for a directory,
so what the name in front of it leads to makes no difference. -/
def writtenNames (path : String) : List String :=
  if endsInSlash path then (names path).dropLast ++ ["."] else names path

def write (t : FileTree) (path text : String) : Except FileError FileTree :=
  match t.locate path (writtenNames path) with
  | .error e => .error e
  | .ok (.directory _) => .error (.system .isDirectory)
  | .ok (.file place _) | .ok (.free place) => .ok (t.put place (utf8 text))

def isWithin (place : List String) : Bool :=
  place.head? ≠ some ".." && place.take 1 ≠ top

/-- The files of the directory that are not as they were in an earlier tree. -/
def changesSince (t earlier : FileTree) : List (List String × List UInt8) :=
  t.files.filter fun f => isWithin f.1 && earlier.find? f.1 ≠ some f.2

def access : FileAccess String (StateM FileTree) where
  read path t := (t.read path, t)
  write path text t :=
    match t.write path text with
    | .error e => (.error e, t)
    | .ok changed => (.ok (), changed)

end FileTree
end StateDiagram
