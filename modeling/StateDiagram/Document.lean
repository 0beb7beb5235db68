import StateDiagram.Text.Quoted

/-! Drawings as text: a frame that holds attributes and edge statements, one a line. -/
namespace StateDiagram

inductive Color
  | black | blue | green
  deriving DecidableEq, Repr

def Color.name : Color → String
  | black => "black"
  | blue => "blue"
  | green => "green"

def indent (level : Nat) : String := String.join (List.replicate level "  ")

/-- The line of an edge statement. The ends are given as they stand between quotes; the label
is plain text. -/
def edgeLine (source target label : String) (color : Color) : String :=
  indent 1 ++
    s!"\"{source}\" -> \"{target}\" [label=\"{escape label}\" color=\"{color.name}\"];\n"

/-- One drawn edge, all in plain text. -/
structure Statement where
  source : String
  target : String
  label : String
  color : Color
  deriving DecidableEq, Repr

def Statement.render (s : Statement) : String :=
  edgeLine (escape s.source) (escape s.target) s.label s.color

inductive Item
  | attr (key value : String)
  | edge (statement : Statement)
  /-- Text that is taken over as it is. -/
  | verbatim (text : String)
  deriving DecidableEq, Repr

def Item.render : Item → String
  | attr key value => indent 1 ++ s!"{key}=\"{escape value}\";\n"
  | edge s => s.render
  | verbatim text => text

structure Document where
  items : List Item
  deriving DecidableEq, Repr

namespace Document

def empty : Document := ⟨[]⟩

def add (d : Document) (item : Item) : Document := ⟨d.items ++ [item]⟩

def render (d : Document) : String :=
  "digraph \x7b\n" ++ String.join (d.items.map Item.render) ++ "\x7d\n"

def ofStatements (attributes : List (String × String)) (statements : List Statement) : Document :=
  ⟨attributes.map (fun a => .attr a.1 a.2) ++ statements.map .edge⟩

end Document
end StateDiagram
