import StateDiagram.Failure
import StateDiagram.Graph

/-! Adding transitions to a node, step by step. A step that is refused adds nothing, and the
fallback of a node is set at most once. -/
namespace StateDiagram

variable {ν : Type}

inductive BuildStep (ν : Type)
  | matchByte (byte : UInt8) (target : ν)
  /-- One edge per byte, in the given order. -/
  | matchAny (bytes : List UInt8) (target : ν)
  | matchBytes (bytes : List UInt8) (target : ν)
  /-- Match a byte without taking it from the input. -/
  | peek (byte : UInt8) (target : ν)
  | invokeCode (code : Int32) (target : ν)
  /-- The fallback that leaves the input where it is. -/
  | otherwise (target : ν)
  /-- The fallback that skips one byte. -/
  | skipTo (target : ν)
  deriving DecidableEq, Repr

inductive BuildFault
  | emptyKey (node : String)
  | fallbackTaken (node : String)
  deriving DecidableEq, Repr

namespace BuildFault

def failure : BuildFault → Failure
  | emptyKey node =>
    ((Failure.invalidArgument "match key must not be empty").during "graph::match_bytes").noting
      "node" node
  | fallbackTaken node =>
    ((Failure.graphBuildFailed "node already has an otherwise edge").during
      "graph::set_otherwise").noting "node" node

end BuildFault

namespace Node

/-- Add edges after the existing ones, without a check. -/
def connect (v : Node ν) (edges : List (Edge ν)) : Node ν := { v with edges := v.edges ++ edges }

def setFallback (v : Node ν) (b : Fallback ν) : Except BuildFault (Node ν) :=
  if v.fallback.isSome then .error (.fallbackTaken v.name) else .ok { v with fallback := some b }

def extend (v : Node ν) : BuildStep ν → Except BuildFault (Node ν)
  | .matchByte b t => .ok (v.connect [⟨t, some (.bytes [b]), false⟩])
  | .matchAny bs t => .ok (v.connect (bs.map fun b => ⟨t, some (.bytes [b]), false⟩))
  | .matchBytes bs t =>
    if bs = [] then .error (.emptyKey v.name)
    else .ok (v.connect [⟨t, some (.bytes bs), false⟩])
  | .peek b t => .ok (v.connect [⟨t, some (.bytes [b]), true⟩])
  | .invokeCode c t => .ok (v.connect [⟨t, some (.code c), true⟩])
  | .otherwise t => v.setFallback ⟨t, true⟩
  | .skipTo t => v.setFallback ⟨t, false⟩

end Node

namespace Graph

variable {n : Nat}

/-- Add an edge to a node without checking its key. -/
def connect (g : Graph n) (v : Fin n) (e : Edge (Fin n)) : Graph n := g.modify v (·.connect [e])

def extend (g : Graph n) (v : Fin n) (step : BuildStep (Fin n)) : Except BuildFault (Graph n) :=
  g.modifyM v (·.extend step)

end Graph
end StateDiagram
