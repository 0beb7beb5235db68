import StateDiagram.Proofs.Arrows
import StateDiagram.Proofs.InputFaults

/-! Graphs that differ in how the edges of a node are interleaved, but not in the order of those
that share a flag and a target. They are walked, named and written down in different orders, but
what is drawn between nodes is the same (`Graph.Interleaves.perm_resolved`). -/
namespace StateDiagram

section Reading

variable {ν : Type} [DecidableEq ν]

namespace Identifiers

def node? (ids : Identifiers ν) (id : String) : Option ν :=
  (ids.entries.find? (·.2 == id)).map (·.1)

def resolve? (ids : Identifiers ν) (e : String × String × String × String) :
    Option (ν × ν × String × String) :=
  match ids.node? e.1, ids.node? e.2.1 with
  | some source, some target => some (source, target, e.2.2)
  | _, _ => none

/-- No other node has the identifier of a node, so it leads back to the node. -/
theorem Inv.node?_of_find? {vs : List ν} {ids : Identifiers ν} (hi : Inv vs ids) {v : ν}
    {id : String} (h : ids.find? v = some id) : ids.node? id = some v := by
  have hmem : (v, id) ∈ ids.entries := hi.find?_eq_some_iff.mp h
  have hsome : (ids.entries.find? (·.2 == id)).isSome := by
    rw [List.find?_isSome]
    exact ⟨_, hmem, beq_self_eq_true id⟩
  obtain ⟨⟨w, id'⟩, he⟩ := Option.isSome_iff_exists.mp hsome
  have hfound := List.find?_some he
  obtain rfl : id' = id := beq_iff_eq.mp hfound
  have hw : ids.find? w = some id' := hi.find?_eq_some_iff.mpr (List.mem_of_find?_eq_some he)
  rw [node?, he, Option.map_some, hi.eq_of_find? hw h]

end Identifiers
end Reading

section Edges

variable {ν : Type}

def Arrow.texts (a : Arrow ν) : ν × ν × String × String :=
  (a.source, a.target, a.label, a.color.name)

namespace Node

variable [DecidableEq ν]

theorem mem_edgesTo {v : Node ν} {e : Edge ν} :
    e ∈ v.edgesTo e.stays e.target ↔ e ∈ v.edges := by
  simp [edgesTo]

theorem mem_targets {v : Node ν} {stays : Bool} {t : ν} :
    t ∈ v.targets stays ↔ ∃ e ∈ v.edges, e.stays = stays ∧ e.target = t := by
  simp only [targets, List.mem_eraseDups, List.mem_map, List.mem_filter, beq_iff_eq, and_assoc]

theorem nodup_targets (v : Node ν) (stays : Bool) : (v.targets stays).Nodup := nodup_eraseDups _

end Node
end Edges

namespace Graph

variable {n : Nat}

theorem node?_drawnId (g : Graph n) {root v : Fin n} (hv : g.Reaches root v) :
    (g.identifiers root).node? (g.drawnId root v) = some v :=
  (inv_identifiers g root).node?_of_find?
    (find?_identifiers g ((mem_reachableFrom_iff g root v).mpr hv))

/-- The identifiers in a drawing lead back to the nodes of its arrows. -/
theorem map_resolve?_told {g : Graph n} {root : Fin n}
    (hkeyed : ∀ v, g.Reaches root v → (g.node v).Keyed) (attributes : List (String × String)) :
    (g.told root attributes).edges.map (g.identifiers root).resolve? =
      ((g.arrows root).map Arrow.texts).map some := by
  rw [told, List.map_map, List.map_map]
  refine List.map_congr_left fun a ha => ?_
  obtain ⟨hsource, htarget⟩ := reaches_of_mem_arrows hkeyed ha
  have hends : (g.identifiers root).node? (a.statement (g.drawnId root)).source = some a.source ∧
      (g.identifiers root).node? (a.statement (g.drawnId root)).target = some a.target :=
    ⟨g.node?_drawnId hsource, g.node?_drawnId htarget⟩
  simp only [Function.comp_apply, Identifiers.resolve?, Statement.texts, hends]
  rfl

/-- `h` has the nodes of `g` with their names and fallbacks, and the edges with one flag that lead
from one node to another are the same in the same order. -/
structure Interleaves (g h : Graph n) : Prop where
  name_eq : ∀ v, h.name v = g.name v
  fallback_eq : ∀ v, (h.node v).fallback = (g.node v).fallback
  edgesTo_eq : ∀ v stays t, (h.node v).edgesTo stays t = (g.node v).edgesTo stays t

end Graph

namespace Graph.Interleaves

variable {n : Nat} {g h : Graph n} {root : Fin n}

theorem symm (hi : g.Interleaves h) : h.Interleaves g where
  name_eq v := (hi.name_eq v).symm
  fallback_eq v := (hi.fallback_eq v).symm
  edgesTo_eq v stays t := (hi.edgesTo_eq v stays t).symm

theorem mem_edges_iff (hi : g.Interleaves h) (v : Fin n) (e : Edge (Fin n)) :
    e ∈ (h.node v).edges ↔ e ∈ (g.node v).edges := by
  rw [← Node.mem_edgesTo, hi.edgesTo_eq, Node.mem_edgesTo]

theorem mem_successors_iff (hi : g.Interleaves h) (v w : Fin n) :
    w ∈ (h.node v).successors ↔ w ∈ (g.node v).successors := by
  simp only [Node.mem_successors, hi.fallback_eq, hi.mem_edges_iff]

theorem reaches (hi : g.Interleaves h) {v : Fin n} (hv : g.Reaches root v) :
    h.Reaches root v := by
  induction hv with
  | root => exact .root
  | step _ hw ih => exact .step ih ((hi.mem_successors_iff _ _).mpr hw)

theorem reaches_iff (hi : g.Interleaves h) (v : Fin n) : h.Reaches root v ↔ g.Reaches root v :=
  ⟨hi.symm.reaches, hi.reaches⟩

theorem keyed_iff (hi : g.Interleaves h) (v : Fin n) : (h.node v).Keyed ↔ (g.node v).Keyed := by
  simp only [Node.Keyed, hi.mem_edges_iff]

/-- Which node is met first may differ, but not which nodes are met. -/
theorem perm_reachableFrom (hi : g.Interleaves h) (root : Fin n) :
    (h.reachableFrom root).Perm (g.reachableFrom root) := by
  rw [List.perm_ext_iff_of_nodup (nodup_reachableFrom h root) (nodup_reachableFrom g root)]
  intro v
  rw [mem_reachableFrom_iff, mem_reachableFrom_iff, hi.reaches_iff]

theorem perm_targets (hi : g.Interleaves h) (v : Fin n) (stays : Bool) :
    ((h.node v).targets stays).Perm ((g.node v).targets stays) := by
  rw [List.perm_ext_iff_of_nodup ((h.node v).nodup_targets stays) ((g.node v).nodup_targets stays)]
  intro t
  simp only [Node.mem_targets, hi.mem_edges_iff]

theorem bundlesTo_eq (hi : g.Interleaves h) (v : Fin n) (stays : Bool) (t : Fin n) :
    (h.node v).bundlesTo stays t = (g.node v).bundlesTo stays t := by
  rw [Node.bundlesTo, hi.edgesTo_eq, Node.bundlesTo]

theorem perm_bundles (hi : g.Interleaves h) (v : Fin n) :
    (h.node v).bundles.Perm (g.node v).bundles := by
  refine List.Perm.flatMap_left _ fun stays _ => ?_
  refine (hi.perm_targets v stays).flatMap fun t _ => ?_
  rw [hi.bundlesTo_eq]

theorem perm_arrows_node (hi : g.Interleaves h) (v : Fin n) :
    ((h.node v).arrows v).Perm ((g.node v).arrows v) := by
  rw [Node.arrows, Node.arrows, hi.fallback_eq]
  exact ((hi.perm_bundles v).map _).append_right _

theorem perm_arrows (hi : g.Interleaves h) (root : Fin n) :
    (h.arrows root).Perm (g.arrows root) :=
  (hi.perm_reachableFrom root).flatMap fun v _ => hi.perm_arrows_node v

theorem exists_draw (hi : g.Interleaves h) {r : Renderer n} (r' : Renderer n)
    (hd : ∃ d, (r.draw g root).1 = .ok d) : ∃ d, (r'.draw h root).1 = .ok d := by
  obtain ⟨d, hd⟩ := hd
  obtain ⟨bs, hbs, -⟩ := read?_of_draw hd
  have hkeyed : ∀ v, h.Reaches root v → (h.node v).Keyed := fun v hv =>
    (hi.keyed_iff v).mpr (keyed_of_blocks hbs v (hi.symm.reaches hv))
  exact exists_draw_of_keyed hkeyed r'.layout

/-- How edges to different targets are interleaved decides neither whether a graph can be drawn nor
what is drawn: when each text is read back, with the nodes that its identifiers were given to, the
same edges are found equally often. -/
theorem perm_resolved (hi : g.Interleaves h) (r r' : Renderer n) (root : Fin n) :
    ((∃ d, (r.draw g root).1 = .ok d) ↔ ∃ d', (r'.draw h root).1 = .ok d') ∧
      ∀ d d', (r.draw g root).1 = .ok d → (r'.draw h root).1 = .ok d' →
        ∃ (x x' : Reading) (edges edges' : List (Fin n × Fin n × String × String)),
          Reading.read? d.render = some x ∧ Reading.read? d'.render = some x' ∧
          x.edges.map (r.draw g root).2.ids.resolve? = edges.map some ∧
          x'.edges.map (r'.draw h root).2.ids.resolve? = edges'.map some ∧
          edges'.Perm edges := by
  refine ⟨⟨hi.exists_draw r', hi.symm.exists_draw r⟩, fun d d' hd hd' => ?_⟩
  obtain ⟨bs, hbs, hread⟩ := read?_of_draw hd
  obtain ⟨bs', hbs', hread'⟩ := read?_of_draw hd'
  exact ⟨_, _, _, _, hread, hread', map_resolve?_told (keyed_of_blocks hbs) _,
    map_resolve?_told (keyed_of_blocks hbs') _, (hi.perm_arrows root).map Arrow.texts⟩

end Graph.Interleaves

/-- All nodes within reach have one name, so the walk decides what they are called. -/
def dealt : Graph 7 :=
  ⟨#v[⟨"n", [⟨1, some (.bytes [0x61]), false⟩, ⟨2, some (.bytes [0x78]), false⟩,
      ⟨1, some (.bytes [0x62]), false⟩, ⟨3, some (.code 5), true⟩, ⟨1, some (.bytes [0x71]), true⟩,
      ⟨3, some (.bytes []), false⟩], some ⟨4, false⟩⟩, ⟨"n", [⟨0, some (.code 1), true⟩], none⟩,
    ⟨"n", [], none⟩, ⟨"n", [], some ⟨3, true⟩⟩, ⟨"n", [], none⟩, ⟨"n", [⟨0, none, true⟩], none⟩,
    ⟨"n", [], none⟩]⟩

def dealtAgain : Graph 7 :=
  dealt.modify 0 fun v => { v with
    edges := [⟨3, some (.code 5), true⟩, ⟨2, some (.bytes [0x78]), false⟩,
      ⟨3, some (.bytes []), false⟩, ⟨1, some (.bytes [0x61]), false⟩,
      ⟨1, some (.bytes [0x71]), true⟩, ⟨1, some (.bytes [0x62]), false⟩] }

theorem Graph.Interleaves.perm_resolved_dealt :
    dealt.Interleaves dealtAgain ∧ dealt.drawnId 0 1 = "n_2" ∧ dealtAgain.drawnId 0 1 = "n_1" ∧
      ∃ d d', ((Renderer.new .plain).draw dealt 0).1 = .ok d ∧
        ((Renderer.new .plain).draw dealtAgain 0).1 = .ok d' ∧
        ∃ (x x' : Reading) (edges edges' : List (Fin 7 × Fin 7 × String × String)),
          Reading.read? d.render = some x ∧ Reading.read? d'.render = some x' ∧
          x.edges.map ((Renderer.new .plain).draw dealt 0).2.ids.resolve? = edges.map some ∧
          x'.edges.map ((Renderer.new .plain).draw dealtAgain 0).2.ids.resolve? =
            edges'.map some ∧
          edges'.Perm edges := by
  have hi : dealt.Interleaves dealtAgain := ⟨by decide, by decide, by decide⟩
  have hd : ∃ d, ((Renderer.new .plain).draw dealt 0).1 = .ok d := ⟨_, by cbv⟩
  obtain ⟨hmade, hperm⟩ := hi.perm_resolved (.new .plain) (.new .plain) 0
  obtain ⟨d', hd'⟩ := hmade.mp hd
  obtain ⟨d, hd⟩ := hd
  exact ⟨hi, by cbv, by cbv, d, d', hd, hd', hperm d d' hd hd'⟩

end StateDiagram
