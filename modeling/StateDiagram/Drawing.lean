import StateDiagram.EdgeGroup
import StateDiagram.Enumeration
import StateDiagram.Identifiers
import StateDiagram.Label
import StateDiagram.Layout

/-! Drawing the part of a graph that can be reached from a root. Each node has a block of
statements, one for each kind of edge and target and one for the fallback. All nodes have
their identifiers before the first block is made. -/
namespace StateDiagram

structure Block where
  id : String
  statements : List Statement
  deriving DecidableEq, Repr

def Block.body (b : Block) : String := String.join (b.statements.map Statement.render)

/-- At most one statement for the byte keys of a group and one for its codes. -/
def KeyShapes.statements (s : KeyShapes) (source target : String) (kind : EdgeKind) :
    List Statement :=
  let labels := (ByteRange.compress s.singles).map Label.byteRange ++ s.sequences.map Label.sequence
  let codes := s.codes.map Label.code
  (if labels = [] then [] else [⟨source, target, Label.join labels, kind.color⟩]) ++
    if codes = [] then [] else [⟨source, target, Label.join codes, EdgeKind.invoke.color⟩]

namespace Graph

variable {n : Nat}

/-- The identifiers of all nodes that can be reached, given in the order of the walk. -/
def identifiers (g : Graph n) (root : Fin n) : Identifiers (Fin n) :=
  (g.reachableFrom root).foldl (fun ids v => ids.assign v (g.name v)) .empty

def groupStatements (g : Graph n) (id : Fin n → String) (v : Fin n) (stays : Bool) :
    Except KeylessEdge (List Statement) := do
  let parts ← ((g.node v).groups stays).mapM fun group => do
    let shapes ← g.shapes v group
    return shapes.statements (id v) (id group.target) (.ofStays stays)
  return parts.flatten

def fallbackStatements (g : Graph n) (id : Fin n → String) (v : Fin n) : List Statement :=
  match (g.node v).fallback with
  | none => []
  | some b => [⟨id v, id b.target, Label.fallback b.stays, (EdgeKind.ofStays b.stays).color⟩]

/-- The block of `v`: edges that take input, edges that do not, and the fallback. -/
def block (g : Graph n) (id : Fin n → String) (v : Fin n) : Except KeylessEdge Block := do
  let advancing ← g.groupStatements id v false
  let staying ← g.groupStatements id v true
  return ⟨id v, advancing ++ staying ++ g.fallbackStatements id v⟩

/-- One block for each node that can be reached, in the order of the walk. -/
def blocks (g : Graph n) (root : Fin n) : Except KeylessEdge (List Block) :=
  let ids := g.identifiers root
  (g.reachableFrom root).mapM (g.block fun v => ids.idOf v (g.name v))

def draw (g : Graph n) (layout : Layout) (root : Fin n) : Except KeylessEdge Document :=
  (g.blocks root).map fun blocks =>
    .ofStatements layout.attributes (blocks.flatMap (·.statements))

theorem draw_eq_ok_iff {g : Graph n} {layout : Layout} {root : Fin n} {d : Document} :
    g.draw layout root = .ok d ↔ ∃ bs, g.blocks root = .ok bs ∧
      d = .ofStatements layout.attributes (bs.flatMap (·.statements)) := by
  rw [draw]
  cases g.blocks root <;> simp [Except.map, eq_comm]

end Graph

def KeylessEdge.drawingFailure (e : KeylessEdge) : Failure :=
  e.failure.during "render::build_blocks"

/-- A layout together with the identifiers of the latest drawing. -/
structure Renderer (n : Nat) where
  layout : Layout
  ids : Identifiers (Fin n)

namespace Renderer

variable {n : Nat}

def new (layout : Layout) : Renderer n := ⟨layout, .empty⟩

def grow (r : Renderer n) : Renderer (n + 1) := ⟨r.layout, r.ids.map Fin.castSucc⟩

def id (r : Renderer n) (g : Graph n) (v : Fin n) : String × Renderer n :=
  (r.ids.idOf v (g.name v), { r with ids := r.ids.assign v (g.name v) })

/-- Make the blocks. The identifiers given for them stay, also if a block cannot be made. -/
def blocks (r : Renderer n) (g : Graph n) (root : Fin n) :
    Except KeylessEdge (List Block) × Renderer n :=
  (g.blocks root, { r with ids := g.identifiers root })

def draw (r : Renderer n) (g : Graph n) (root : Fin n) :
    Except KeylessEdge Document × Renderer n :=
  (g.draw r.layout root, { r with ids := g.identifiers root })

end Renderer
end StateDiagram
