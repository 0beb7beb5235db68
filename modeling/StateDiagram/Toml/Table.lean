import StateDiagram.Toml.Text
import StateDiagram.Toml.Value

/-! Putting keys into tables. A table can be opened by a header of its own, implied by the
header of a table below it, or come from a key with points in it; what may still be added to a
table depends on this. -/
namespace StateDiagram
namespace Toml

inductive Origin
  | header | implied | dotted
  deriving DecidableEq, Repr

inductive Item
  /-- A complete value, to which nothing can be added. -/
  | value (value : Value)
  | table (origin : Origin) (entries : List (String × Item))
  /-- The tables of an array that headers add to, one by one. -/
  | tables (elements : List (List (String × Item)))
  deriving Repr

/-- What a table holds, in the order of the first appearance of each key. -/
abbrev Entries := List (String × Item)

namespace Entries

def replace (entries : Entries) (key : String) (item : Item) : Entries :=
  entries.map fun e => if e.1 = key then (key, item) else e

def remove (entries : Entries) (key : String) : Entries := entries.filter (·.1 ≠ key)

/-- Edit the table at the end of a path. Missing tables on the way are made; a path through an
array of tables goes on in its last table. With `dotted`, the path must not lead through a table
that has a header of its own. The edit is told whether the table comes from a key with points. -/
def editAt (dotted : Bool) (edit : Bool → Entries → Option Entries) :
    List String → Bool → Entries → Option Entries
  | [], isDotted, entries => edit isDotted entries
  | key :: path, _, entries =>
    match entries.lookup key with
    | none => do
      let origin := if dotted then Origin.dotted else Origin.implied
      let made ← editAt dotted edit path dotted []
      some (entries ++ [(key, .table origin made)])
    | some (.value _) => none
    | some (.table origin inner) =>
      if dotted ∧ origin = .header then none
      else do
        let made ← editAt dotted edit path (decide (origin = .dotted)) inner
        some (entries.replace key (.table origin made))
    | some (.tables elements) =>
      match elements.getLast? with
      | none => none
      | some inner => do
        let made ← editAt dotted edit path false inner
        some (entries.replace key (.tables (elements.dropLast ++ [made])))

/-- Add a key to a table. A key must be new, and one with points must not add to a table that
has another origin. -/
def addKey (entries : Entries) (path : KeyPath) (value : Value) : Option Entries :=
  editAt true (fun isDotted inner =>
    if isDotted = path.parents.isEmpty then none
    else if (inner.lookup path.name).isSome then none
    else some (inner ++ [(path.name, .value value)])) path.parents false entries

def addKeys (entries : Entries) (keys : List (KeyPath × Value)) : Option Entries :=
  keys.foldlM (fun entries key => entries.addKey key.1 key.2) entries

/-- Add a table with a header. A table that was only implied so far keeps what it holds, and
takes its place anew. -/
def addTable (root : Entries) (path : KeyPath) (keys : List (KeyPath × Value)) : Option Entries :=
  editAt false (fun _ parent => do
    let held ← match parent.lookup path.name with
      | none => some []
      | some (.table .implied held) => some held
      | some _ => none
    let entries ← addKeys held keys
    some (parent.remove path.name ++ [(path.name, .table .header entries)])) path.parents false root

def addElement (root : Entries) (path : KeyPath) (keys : List (KeyPath × Value)) :
    Option Entries :=
  editAt false (fun _ parent => do
    let entries ← addKeys [] keys
    match parent.lookup path.name with
    | none => some (parent ++ [(path.name, .tables [entries])])
    | some (.tables elements) => some (parent.replace path.name (.tables (elements ++ [entries])))
    | some _ => none) path.parents false root

end Entries

mutual

def Item.toValue : Item → Value
  | .value v => v
  | .table _ entries => .table (entriesToValues entries)
  | .tables elements => .array (elementsToValues elements)

def entriesToValues : List (String × Item) → List (String × Value)
  | [] => []
  | (key, item) :: rest => (key, item.toValue) :: entriesToValues rest

def elementsToValues : List (List (String × Item)) → List Value
  | [] => []
  | entries :: rest => .table (entriesToValues entries) :: elementsToValues rest

end

end Toml
end StateDiagram
