import StateDiagram.Proofs.Multiplicity
import StateDiagram.Proofs.Reading

/-! A drawing before its nodes are named. An arrow is a statement with nodes at its ends. A node has
an arrow to just what its edges and its fallback lead to, and the text of a drawing can be read back
as the arrows of the nodes within reach (`Graph.read?_of_draw`). -/
namespace StateDiagram

structure Arrow (ν : Type) where
  source : ν
  target : ν
  label : String
  color : Color
  deriving DecidableEq, Repr

section Nodes

variable {ν : Type}

def Arrow.statement (id : ν → String) (a : Arrow ν) : Statement :=
  ⟨id a.source, id a.target, a.label, a.color⟩

def Bundle.arrow (source : ν) (b : Bundle ν) : Arrow ν :=
  ⟨source, b.target, Label.join b.labels, b.kind.color⟩

def Fallback.arrow (source : ν) (b : Fallback ν) : Arrow ν :=
  ⟨source, b.target, Label.fallback b.stays, (EdgeKind.ofStays b.stays).color⟩

variable [DecidableEq ν]

namespace Node

/-- The arrows of the node `source`, which is `v`: its bundles, and then its fallback. -/
def arrows (v : Node ν) (source : ν) : List (Arrow ν) :=
  v.bundles.map (·.arrow source) ++ v.fallback.toList.map (·.arrow source)

theorem reference_eq_map (v : Node ν) (id : ν → String) (source : ν) :
    v.reference id source = (v.arrows source).map (·.statement id) := by
  rw [reference, arrows, List.map_append, List.map_map, List.map_map]
  rfl

theorem source_of_mem_arrows {v : Node ν} {source : ν} {a : Arrow ν} (h : a ∈ v.arrows source) :
    a.source = source := by
  rcases List.mem_append.mp h with h | h
  · obtain ⟨b, _, rfl⟩ := List.mem_map.mp h
    rfl
  · obtain ⟨b, _, rfl⟩ := List.mem_map.mp h
    rfl

theorem target_of_mem_edges {v : Node ν} {b : Bundle ν} (hb : b ∈ v.bundles) {e : Edge ν}
    (he : e ∈ b.edges) : e.target = b.target := by
  obtain ⟨stays, _, hb⟩ := List.mem_flatMap.mp hb
  obtain ⟨t, _, hb⟩ := List.mem_flatMap.mp hb
  have hmem : e ∈ (v.bundlesTo stays t).flatMap (·.edges) := List.mem_flatMap.mpr ⟨b, hb, he⟩
  rw [flatMap_edges_bundlesTo] at hmem
  have hto : e ∈ v.edgesTo stays t := by
    rcases List.mem_append.mp hmem with hmem | hmem
    · exact (List.mem_filter.mp hmem).1
    · exact (List.mem_filter.mp hmem).1
  have hflag := (List.mem_filter.mp hto).2
  simp only [Bool.and_eq_true, beq_iff_eq] at hflag
  rw [target_of_mem_bundlesTo hb, hflag.2]

/-- Whatever the shape of its key, an edge has its arrow. -/
theorem exists_arrow_iff {v : Node ν} (hv : v.Keyed) (source t : ν) :
    (∃ a ∈ v.arrows source, a.target = t) ↔ t ∈ v.successors := by
  constructor
  · rintro ⟨a, ha, rfl⟩
    rcases List.mem_append.mp ha with ha | ha
    · obtain ⟨b, hb, rfl⟩ := List.mem_map.mp ha
      exact target_mem_successors hb
    · obtain ⟨b, hb, rfl⟩ := List.mem_map.mp ha
      exact mem_successors.mpr (.inl ⟨b, Option.mem_toList.mp hb, rfl⟩)
  · intro ht
    rcases mem_successors.mp ht with ⟨b, hb, rfl⟩ | ⟨e, he, rfl⟩
    · have hmem : b.arrow source ∈ v.fallback.toList.map (·.arrow source) :=
        List.mem_map_of_mem (Option.mem_toList.mpr hb)
      exact ⟨b.arrow source, List.mem_append_right _ hmem, rfl⟩
    · obtain ⟨b, hb, heb⟩ := List.mem_flatMap.mp ((perm_bundles hv).mem_iff.mpr he)
      have hmem : b.arrow source ∈ v.bundles.map (·.arrow source) := List.mem_map_of_mem hb
      exact ⟨b.arrow source, List.mem_append_left _ hmem, (target_of_mem_edges hb heb).symm⟩

end Node
end Nodes

namespace Graph

variable {n : Nat}

/-- The arrows of all nodes that can be reached, in the order of the walk. -/
def arrows (g : Graph n) (root : Fin n) : List (Arrow (Fin n)) :=
  (g.reachableFrom root).flatMap fun v => (g.node v).arrows v

def arrowBlock (g : Graph n) (root v : Fin n) : Block :=
  ⟨g.drawnId root v, ((g.node v).arrows v).map (·.statement (g.drawnId root))⟩

theorem keyed_of_blocks {g : Graph n} {root : Fin n} {bs : List Block} (h : g.blocks root = .ok bs)
    (v : Fin n) (hv : g.Reaches root v) : (g.node v).Keyed := key_ne_none_of_blocks h hv

theorem eq_map_arrowBlock {g : Graph n} {root : Fin n} {bs : List Block}
    (h : g.blocks root = .ok bs) : bs = (g.reachableFrom root).map (g.arrowBlock root) := by
  rw [blocks_of_keyed (keyed_of_blocks h)] at h
  rw [← Except.ok.inj h]
  simp only [Node.reference_eq_map]
  rfl

theorem flatMap_statements_arrowBlock (g : Graph n) (root : Fin n) :
    ((g.reachableFrom root).map (g.arrowBlock root)).flatMap (·.statements) =
      (g.arrows root).map (·.statement (g.drawnId root)) := by
  rw [List.flatMap_map, arrows, List.map_flatMap]
  rfl

theorem reaches_of_mem_arrows {g : Graph n} {root : Fin n}
    (hkeyed : ∀ v, g.Reaches root v → (g.node v).Keyed) {a : Arrow (Fin n)}
    (ha : a ∈ g.arrows root) : g.Reaches root a.source ∧ g.Reaches root a.target := by
  obtain ⟨v, hv, ha⟩ := List.mem_flatMap.mp ha
  have hreach : g.Reaches root v := (mem_reachableFrom_iff g root v).mp hv
  have htarget := (Node.exists_arrow_iff (hkeyed v hreach) v a.target).mp ⟨a, ha, rfl⟩
  exact ⟨Node.source_of_mem_arrows ha ▸ hreach, .step hreach htarget⟩

/-- What a drawing from `root` tells, in plain text: its arrows, by the names of their ends. -/
def told (g : Graph n) (root : Fin n) (attributes : List (String × String)) : Reading :=
  ⟨attributes, (g.arrows root).map fun a => (a.statement (g.drawnId root)).texts⟩

theorem read?_of_draw {r : Renderer n} {g : Graph n} {root : Fin n} {d : Document}
    (h : (r.draw g root).1 = .ok d) :
    ∃ bs, g.blocks root = .ok bs ∧
      Reading.read? d.render = some (g.told root r.layout.attributes) := by
  obtain ⟨bs, hbs, rfl⟩ := draw_eq_ok_iff.mp h
  refine ⟨bs, hbs, ?_⟩
  rw [Reading.read?_render_ofStatements (fun a ha => Reading.isAlpha_of_mem_attributes _ ha),
    eq_map_arrowBlock hbs, flatMap_statements_arrowBlock, List.map_map]
  rfl

end Graph
end StateDiagram
