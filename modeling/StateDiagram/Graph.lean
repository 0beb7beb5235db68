import StateDiagram.Key
import StateDiagram.Text.Literal

/-! State machines as rooted graphs. The nodes of a graph are numbered in the order in which
they were added, and an edge names its target by number, so cycles, parallel edges and
shared names need no further care. Two nodes are the same if their numbers are. -/
namespace StateDiagram

/-- A transition to `target`. A well-formed one has a key. -/
structure Edge (ν : Type) where
  target : ν
  key : Option Key
  /-- Whether taking the edge leaves the input where it is. -/
  stays : Bool
  deriving DecidableEq, Repr

/-- The transition taken when no edge of a node matches. -/
structure Fallback (ν : Type) where
  target : ν
  stays : Bool
  deriving DecidableEq, Repr

structure Node (ν : Type) where
  name : String
  /-- In the order in which they were added. -/
  edges : List (Edge ν)
  fallback : Option (Fallback ν)
  deriving DecidableEq, Repr

variable {ν μ : Type}

def Edge.map (f : ν → μ) (e : Edge ν) : Edge μ := ⟨f e.target, e.key, e.stays⟩

def Fallback.map (f : ν → μ) (b : Fallback ν) : Fallback μ := ⟨f b.target, b.stays⟩

namespace Node

def map (f : ν → μ) (v : Node ν) : Node μ :=
  ⟨v.name, v.edges.map (·.map f), v.fallback.map (·.map f)⟩

@[simp] theorem map_id (v : Node ν) : v.map id = v := by
  cases v with
  | mk name edges fallback =>
    cases fallback <;> simp [map, Edge.map, Fallback.map]

theorem map_map {κ : Type} (f : ν → μ) (g : μ → κ) (v : Node ν) :
    (v.map f).map g = v.map (g ∘ f) := by
  cases v with
  | mk name edges fallback =>
    cases fallback <;> simp [map, Edge.map, Fallback.map]

def bare (name : String) : Node ν := ⟨name, [], none⟩

/-- Where the node leads: the fallback first, then the edges from the last added to the first. -/
def successors (v : Node ν) : List ν :=
  (v.fallback.map (·.target)).toList ++ (v.edges.map (·.target)).reverse

theorem mem_successors {v : Node ν} {t : ν} :
    t ∈ v.successors ↔
      (∃ b, v.fallback = some b ∧ b.target = t) ∨ ∃ e ∈ v.edges, e.target = t := by
  simp [successors, Option.mem_toList]

def describe (v : Node ν) : String :=
  let name := Text.literal v.name
  s!"ArenaNode \x7b name: {name}, edges: {v.edges.length}, otherwise: {v.fallback.isSome} \x7d"

end Node

/-- A graph of `n` nodes, each leading to nodes of the same graph. -/
structure Graph (n : Nat) where
  nodes : Vector (Node (Fin n)) n

namespace Graph

variable {n : Nat}

def empty : Graph 0 := ⟨#v[]⟩

def node (g : Graph n) (v : Fin n) : Node (Fin n) := g.nodes[v]

def name (g : Graph n) (v : Fin n) : String := (g.node v).name

/-- Add a bare node after the existing ones, which keep their numbers. -/
def add (g : Graph n) (name : String) : Graph (n + 1) :=
  ⟨(g.nodes.map (·.map Fin.castSucc)).push (.bare name)⟩

@[simp] theorem node_add_castSucc (g : Graph n) (name : String) (v : Fin n) :
    (g.add name).node v.castSucc = (g.node v).map Fin.castSucc := by
  simp [node, add, Vector.getElem_push_lt]

@[simp] theorem node_add_last (g : Graph n) (name : String) :
    (g.add name).node (Fin.last n) = .bare name := by
  simp [node, add]

def modify (g : Graph n) (v : Fin n) (f : Node (Fin n) → Node (Fin n)) : Graph n :=
  ⟨g.nodes.set v (f (g.node v))⟩

theorem node_modify (g : Graph n) (v w : Fin n) (f : Node (Fin n) → Node (Fin n)) :
    (g.modify v f).node w = if w = v then f (g.node v) else g.node w := by
  by_cases h : w = v
  · subst h; simp [node, modify]
  · have hv : v.val ≠ w.val := fun e => h (Fin.ext e.symm)
    simp [node, modify, h, Vector.getElem_set_ne _ _ hv]

/-- Change one node by a step that can fail; a failure leaves no graph behind. -/
def modifyM {ε : Type} (g : Graph n) (v : Fin n)
    (f : Node (Fin n) → Except ε (Node (Fin n))) : Except ε (Graph n) :=
  (f (g.node v)).map fun node => g.modify v fun _ => node

def describe (_ : Graph n) : String := s!"GraphArena \x7b nodes: {n} \x7d"

end Graph
end StateDiagram
