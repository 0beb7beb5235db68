/-! Descriptions of graphs: a root and a list of nodes, which name each other by id. -/
namespace StateDiagram

/-- A transition as it is described. The key is given in one of four forms. -/
structure EdgeEntry where
  target : String
  /-- Text to match as a whole. -/
  literal : Option String
  /-- Text of which every byte is matched on its own. -/
  anyOf : Option String
  /-- Bytes to match as a whole. -/
  bytes : Option (List UInt8)
  /-- The return code of a callback. -/
  code : Option Int32
  /-- Whether the matched bytes stay in the input. -/
  peek : Bool
  deriving DecidableEq, Repr

structure NodeEntry where
  id : String
  /-- What is drawn, unless it is the id. -/
  name : Option String
  edges : List EdgeEntry
  /-- Where to go without taking input if no edge matches. -/
  otherwise : Option String
  /-- Where to go after skipping a byte if no edge matches. -/
  skipTo : Option String
  deriving DecidableEq, Repr

def NodeEntry.shownName (e : NodeEntry) : String := e.name.getD e.id

structure Description where
  root : String
  nodes : List NodeEntry
  deriving DecidableEq, Repr

end StateDiagram
