import StateDiagram.Document
import StateDiagram.Failure
import StateDiagram.Graph

/-! The edges of a node, brought together for drawing: first by whether they leave the input
where it is, then by target in the order in which targets are first seen, then by the shape
of their keys. Edges keep their order throughout, and none is lost. -/
namespace StateDiagram

/-- How a drawn edge moves the input: on, not at all, or through a callback. -/
inductive EdgeKind
  | advance | stay | invoke
  deriving DecidableEq, Repr

namespace EdgeKind

def all : List EdgeKind := [advance, stay, invoke]

def name : EdgeKind → String
  | advance => "advance"
  | stay => "no_advance"
  | invoke => "invoke"

def color : EdgeKind → Color
  | advance => .black
  | stay => .blue
  | invoke => .green

def ofStays (stays : Bool) : EdgeKind := if stays then stay else advance

end EdgeKind

/-- All edges of one collection that lead to the same target. -/
structure EdgeGroup (ν : Type) where
  target : ν
  edges : List (Edge ν)
  deriving Repr

/-- The keys of a group by shape, each list in edge order. -/
structure KeyShapes where
  singles : List UInt8
  /-- Byte keys of any other length than one. -/
  sequences : List (List UInt8)
  codes : List Int32
  deriving DecidableEq, Repr

namespace Key

def sequence? : Key → Option (List UInt8)
  | bytes [_] => none
  | bytes bs => some bs
  | code _ => none

def code? : Key → Option Int32
  | code c => some c
  | bytes _ => none

end Key

def KeyShapes.ofKeys (keys : List Key) : KeyShapes where
  singles := keys.filterMap Key.singleByte?
  sequences := keys.filterMap Key.sequence?
  codes := keys.filterMap Key.code?

theorem KeyShapes.count_ofKeys (keys : List Key) :
    (ofKeys keys).singles.length + (ofKeys keys).sequences.length + (ofKeys keys).codes.length =
      keys.length := by
  induction keys with
  | nil => rfl
  | cons k ks ih =>
    simp only [ofKeys] at ih
    rcases k with c | bs
    · simp only [ofKeys, List.filterMap_cons, Key.singleByte?, Key.sequence?, Key.code?,
        List.length_cons]
      omega
    · rcases bs with _ | ⟨b, _ | ⟨b', bs⟩⟩ <;>
        simp only [ofKeys, List.filterMap_cons, Key.singleByte?, Key.sequence?, Key.code?,
          List.length_cons] <;> omega

namespace EdgeGroup

variable {ν : Type} [DecidableEq ν]

/-- Add an edge to the group of its target, or in a new group at the end. -/
def push : List (EdgeGroup ν) → Edge ν → List (EdgeGroup ν)
  | [], e => [⟨e.target, [e]⟩]
  | g :: gs, e =>
    if g.target = e.target then { g with edges := g.edges ++ [e] } :: gs else g :: push gs e

def ofEdges (edges : List (Edge ν)) : List (EdgeGroup ν) := edges.foldl push []

theorem perm_flatMap_edges_push (gs : List (EdgeGroup ν)) (e : Edge ν) :
    ((push gs e).flatMap EdgeGroup.edges).Perm (gs.flatMap EdgeGroup.edges ++ [e]) := by
  induction gs with
  | nil => simp [push]
  | cons g gs ih =>
    simp only [push]
    split
    · simp only [List.flatMap_cons, List.append_assoc]
      exact List.Perm.append_left _ List.perm_append_comm
    · simp only [List.flatMap_cons, List.append_assoc]
      exact List.Perm.append_left _ ih

theorem perm_flatMap_edges_ofEdges (edges : List (Edge ν)) :
    ((ofEdges edges).flatMap EdgeGroup.edges).Perm edges := by
  have h : ∀ (es : List (Edge ν)) (gs : List (EdgeGroup ν)),
      ((es.foldl push gs).flatMap EdgeGroup.edges).Perm (gs.flatMap EdgeGroup.edges ++ es) := by
    intro es
    induction es with
    | nil => intro gs; simp
    | cons e es ih =>
      intro gs
      rw [List.foldl_cons, List.append_cons]
      exact (ih _).trans (List.Perm.append_right _ (perm_flatMap_edges_push gs e))
  exact h edges []

omit [DecidableEq ν] in
/-- The keys of the group by shape, or the position of the first edge without a key. -/
def shapes (g : EdgeGroup ν) : Except Nat KeyShapes :=
  match g.edges.findIdx? (·.key.isNone) with
  | some position => .error position
  | none => .ok (.ofKeys (g.edges.filterMap (·.key)))

end EdgeGroup

/-- The groups of the edges that leave the input where it is, or of those that do not. -/
def Node.groups {ν : Type} [DecidableEq ν] (v : Node ν) (stays : Bool) : List (EdgeGroup ν) :=
  EdgeGroup.ofEdges (v.edges.filter (·.stays == stays))

/-- An edge without a key, by the names of its ends and its position in its group. -/
structure KeylessEdge where
  node : String
  target : String
  position : Nat
  deriving DecidableEq, Repr

namespace KeylessEdge

def failure (e : KeylessEdge) : Failure :=
  ((((Failure.invariantViolation "regular edge without a key").during "render::split_keys").noting
    "node" e.node).noting "target" e.target).noting "position" (toString e.position)

end KeylessEdge

def Graph.shapes {n : Nat} (g : Graph n) (v : Fin n) (group : EdgeGroup (Fin n)) :
    Except KeylessEdge KeyShapes :=
  match group.shapes with
  | .ok shapes => .ok shapes
  | .error position => .error ⟨g.name v, g.name group.target, position⟩

end StateDiagram
