import StateDiagram.Drawing
import StateDiagram.Proofs.Attempts
import StateDiagram.Proofs.Grouping
import StateDiagram.Proofs.Walk

/-! When a drawing is given up. It fails exactly if a node that can be reached has an edge without
a key. Of several such edges the one is named that the renderer comes to first, which need not
be the first one of its node (`outcome_eq_error_iff`). -/
namespace StateDiagram

/-- What a drawing comes to for its user: the text of the document, or the reported failure. -/
def Renderer.outcome {n : Nat} (r : Renderer n) (g : Graph n) (root : Fin n) :
    Except Failure String :=
  ((r.draw g root).1.map Document.render).mapError KeylessEdge.drawingFailure

section Groups

variable {ν : Type}

def Edge.keyless (e : Edge ν) : Bool := e.key.isNone

theorem Edge.keyless_iff {e : Edge ν} : e.keyless = true ↔ e.key = none := Option.isNone_iff_eq_none

theorem EdgeGroup.fault?_shapes (g : EdgeGroup ν) :
    fault? g.shapes = g.edges.findIdx? Edge.keyless := by
  have hidx : g.edges.findIdx? Edge.keyless = g.edges.findIdx? (·.key.isNone) := rfl
  rw [hidx, EdgeGroup.shapes]
  cases g.edges.findIdx? (·.key.isNone) <;> rfl

variable [DecidableEq ν]

namespace Node

/-- Among the edges with a flag, the first target and position of an edge without a key. -/
def keylessTo? (v : Node ν) (stays : Bool) : Option (ν × Nat) :=
  (v.targets stays).findSome? fun t =>
    ((v.edgesTo stays t).findIdx? Edge.keyless).map fun position => (t, position)

def keyless? (v : Node ν) : Option (Bool × ν × Nat) :=
  [false, true].findSome? fun stays => (v.keylessTo? stays).map fun place => (stays, place)

theorem any_keyless_targets (v : Node ν) (stays : Bool) :
    ((v.targets stays).any fun t => (v.edgesTo stays t).any Edge.keyless) =
      v.edges.any fun e => e.stays == stays && e.keyless := by
  rw [Bool.eq_iff_iff]
  simp only [List.any_eq_true, targets, edgesTo, List.mem_eraseDups, List.mem_map, List.mem_filter,
    Bool.and_eq_true, beq_iff_eq]
  constructor
  · rintro ⟨t, _, e, ⟨he, hs, _⟩, hk⟩
    exact ⟨e, he, hs, hk⟩
  · rintro ⟨e, he, hs, hk⟩
    exact ⟨e.target, ⟨e, ⟨he, hs⟩, rfl⟩, e, ⟨he, hs, rfl⟩, hk⟩

theorem isSome_keylessTo? (v : Node ν) (stays : Bool) :
    (v.keylessTo? stays).isSome = v.edges.any fun e => e.stays == stays && e.keyless := by
  rw [← any_keyless_targets, keylessTo?, Bool.eq_iff_iff, List.findSome?_isSome_iff,
    List.any_eq_true]
  simp only [Option.isSome_map, List.findIdx?_isSome]

theorem isSome_keyless? (v : Node ν) : v.keyless?.isSome = v.edges.any Edge.keyless := by
  rw [keyless?, Bool.eq_iff_iff, List.findSome?_isSome_iff, List.any_eq_true]
  simp only [Option.isSome_map, isSome_keylessTo?, List.any_eq_true, Bool.and_eq_true, beq_iff_eq]
  constructor
  · rintro ⟨stays, _, e, he, _, hk⟩
    exact ⟨e, he, hk⟩
  · rintro ⟨e, he, hk⟩
    exact ⟨e.stays, by cases e.stays <;> simp, e, he, rfl, hk⟩

end Node
end Groups

namespace Graph

variable {n : Nat}

/-- The edge without a key at which the drawing from `root` stops: in the first node of the walk
that has one, among the edges that take input before the others, among those to the target that
is seen first, and among them the earliest. -/
structure Culprit (g : Graph n) (root v : Fin n) (stays : Bool) (t : Fin n) (position : Nat) :
    Prop where
  node : (g.reachableFrom root).find? (fun w => (g.node w).edges.any Edge.keyless) = some v
  flag : [false, true].find? (fun s =>
    (g.node v).edges.any fun e => e.stays == s && e.keyless) = some stays
  target : ((g.node v).targets stays).find? (fun u =>
    ((g.node v).edgesTo stays u).any Edge.keyless) = some t
  position : ((g.node v).edgesTo stays t).findIdx? Edge.keyless = some position

def keylessEdge (g : Graph n) (v : Fin n) (place : Fin n × Nat) : KeylessEdge :=
  ⟨g.name v, g.name place.1, place.2⟩

theorem fault?_shapes (g : Graph n) (v : Fin n) (group : EdgeGroup (Fin n)) :
    fault? (g.shapes v group) =
      (group.edges.findIdx? Edge.keyless).map fun i => g.keylessEdge v (group.target, i) := by
  rw [← EdgeGroup.fault?_shapes, shapes]
  cases group.shapes <;> rfl

theorem fault?_groupStatements (g : Graph n) (id : Fin n → String) (v : Fin n) (stays : Bool) :
    fault? (g.groupStatements id v stays) =
      ((g.node v).keylessTo? stays).map (g.keylessEdge v) := by
  have hgroup (group : EdgeGroup (Fin n)) : fault? (do
      let shapes ← g.shapes v group
      return shapes.statements (id v) (id group.target) (.ofStays stays)) =
      (group.edges.findIdx? Edge.keyless).map fun i => g.keylessEdge v (group.target, i) := by
    rw [fault?_bind_pure, fault?_shapes]
  rw [groupStatements, fault?_bind_pure, fault?_mapM,
    Node.groups_eq_map, List.findSome?_map, Node.keylessTo?, List.map_findSome?]
  congr 1
  funext t
  rw [Function.comp_apply, hgroup, Function.comp_apply, Option.map_map]
  rfl

theorem fault?_block (g : Graph n) (id : Fin n → String) (v : Fin n) :
    fault? (g.block id v) = (g.node v).keyless?.map fun place => g.keylessEdge v place.2 := by
  have hstaying (advancing : List Statement) : fault? (do
      let staying ← g.groupStatements id v true
      return (⟨id v, advancing ++ staying ++ g.fallbackStatements id v⟩ : Block)) =
      ((g.node v).keylessTo? true).map (g.keylessEdge v) := by
    rw [fault?_bind_pure, fault?_groupStatements]
  rw [block, fault?_bind hstaying, fault?_groupStatements, Node.keyless?]
  simp only [List.findSome?_cons, List.findSome?_nil]
  cases (g.node v).keylessTo? false <;> cases (g.node v).keylessTo? true <;> rfl

theorem fault?_draw (g : Graph n) (layout : Layout) (root : Fin n) :
    fault? (g.draw layout root) = (g.reachableFrom root).findSome? fun v =>
      (g.node v).keyless?.map fun place => g.keylessEdge v place.2 := by
  rw [draw, fault?_map, blocks, fault?_mapM]
  simp only [fault?_block]

theorem key_ne_none_of_blocks {g : Graph n} {root v : Fin n} {bs : List Block}
    (h : g.blocks root = .ok bs) (hv : g.Reaches root v) : ∀ e ∈ (g.node v).edges, e.key ≠ none := by
  have hfault : fault? (g.blocks root) = none := by rw [h]; rfl
  rw [blocks, fault?_mapM, List.findSome?_eq_none_iff] at hfault
  have hnone := hfault v ((mem_reachableFrom_iff g root v).mpr hv)
  rw [fault?_block, Option.map_eq_none_iff] at hnone
  have hany := (g.node v).isSome_keyless?
  rw [hnone, Option.isSome_none, eq_comm, List.any_eq_false] at hany
  exact fun e he hk => hany e he (Edge.keyless_iff.mpr hk)

theorem culprit_iff {g : Graph n} {root v t : Fin n} {stays : Bool} {position : Nat} :
    g.Culprit root v stays t position ↔
      (g.reachableFrom root).find? (fun w => (g.node w).edges.any Edge.keyless) = some v ∧
        (g.node v).keyless? = some (stays, t, position) := by
  have hplace : (g.node v).keylessTo? stays = some (t, position) ↔
      ((g.node v).targets stays).find? (fun u =>
          ((g.node v).edgesTo stays u).any Edge.keyless) = some t ∧
        ((g.node v).edgesTo stays t).findIdx? Edge.keyless = some position := by
    rw [Node.keylessTo?, findSome?_eq_some_iff_find?]
    simp only [Option.isSome_map, List.findIdx?_isSome, Option.map_eq_some_iff, Prod.mk.injEq]
    grind
  have hflag : (g.node v).keyless? = some (stays, t, position) ↔
      [false, true].find? (fun s =>
          (g.node v).edges.any fun e => e.stays == s && e.keyless) = some stays ∧
        (g.node v).keylessTo? stays = some (t, position) := by
    rw [Node.keyless?, findSome?_eq_some_iff_find?]
    simp only [Option.isSome_map, Node.isSome_keylessTo?, Option.map_eq_some_iff, Prod.mk.injEq]
    grind
  rw [hflag, hplace]
  exact ⟨fun h => ⟨h.node, h.flag, h.target, h.position⟩, fun h => ⟨h.1, h.2.1, h.2.2.1, h.2.2.2⟩⟩

theorem draw_eq_error_iff (g : Graph n) (layout : Layout) (root : Fin n) (k : KeylessEdge) :
    g.draw layout root = .error k ↔
      ∃ v stays t position, g.Culprit root v stays t position ∧
        k = g.keylessEdge v (t, position) := by
  rw [← fault?_eq_some_iff, fault?_draw, findSome?_eq_some_iff_find?]
  simp only [Option.isSome_map, Node.isSome_keyless?, culprit_iff, Option.map_eq_some_iff,
    Prod.exists]
  constructor
  · rintro ⟨v, hv, stays, t, i, hplace, rfl⟩
    exact ⟨v, stays, t, i, ⟨hv, hplace⟩, rfl⟩
  · rintro ⟨v, stays, t, i, ⟨hv, hplace⟩, rfl⟩
    exact ⟨v, hv, stays, t, i, hplace, rfl⟩

theorem exists_culprit_iff (g : Graph n) (root : Fin n) :
    (∃ v stays t position, g.Culprit root v stays t position) ↔
      ∃ v, g.Reaches root v ∧ ∃ e ∈ (g.node v).edges, e.key = none := by
  simp only [culprit_iff]
  constructor
  · rintro ⟨v, _, _, _, hv, _⟩
    have hany := List.find?_some hv
    obtain ⟨e, he, hk⟩ := List.any_eq_true.mp hany
    exact ⟨v, (mem_reachableFrom_iff g root v).mp (List.mem_of_find?_eq_some hv), e, he,
      Edge.keyless_iff.mp hk⟩
  · rintro ⟨w, hw, e, he, hk⟩
    have hfound : ((g.reachableFrom root).find?
        fun u => (g.node u).edges.any Edge.keyless).isSome := by
      rw [List.find?_isSome]
      exact ⟨w, (mem_reachableFrom_iff g root w).mpr hw,
        List.any_eq_true.mpr ⟨e, he, Edge.keyless_iff.mpr hk⟩⟩
    obtain ⟨v, hv⟩ := Option.isSome_iff_exists.mp hfound
    have hplace := List.find?_some hv
    rw [← Node.isSome_keyless?] at hplace
    obtain ⟨⟨stays, t, position⟩, hplace⟩ := Option.isSome_iff_exists.mp hplace
    exact ⟨v, stays, t, position, hv, hplace⟩

end Graph

/-- A drawing fails exactly if a node that can be reached has an edge without a key, and what it
then reports is the place of the edge that is come to first. -/
theorem Renderer.outcome_eq_error_iff {n : Nat} (r : Renderer n) (g : Graph n) (root : Fin n) :
    ((∃ f, r.outcome g root = .error f) ↔
        ∃ v, g.Reaches root v ∧ ∃ e ∈ (g.node v).edges, e.key = none) ∧
      ∀ f, r.outcome g root = .error f ↔
        ∃ v stays t position, g.Culprit root v stays t position ∧ f =
          { kind := .invariantViolation
            message := "regular edge without a key"
            operation := "render::build_blocks"
            context := [("node", g.name v), ("target", g.name t), ("position", toString position),
              ("called", "render::split_keys")]
            causes := [] } := by
  have herror (f : Failure) : r.outcome g root = .error f ↔
      ∃ k, g.draw r.layout root = .error k ∧ k.drawingFailure = f := by
    rw [← fault?_eq_some_iff, outcome, fault?_mapError, fault?_map, Option.map_eq_some_iff]
    simp only [fault?_eq_some_iff, draw]
  have hreport (f : Failure) : r.outcome g root = .error f ↔
      ∃ v stays t position, g.Culprit root v stays t position ∧
        f = (g.keylessEdge v (t, position)).drawingFailure := by
    rw [herror]
    simp only [Graph.draw_eq_error_iff]
    constructor
    · rintro ⟨k, ⟨v, stays, t, position, hc, rfl⟩, rfl⟩
      exact ⟨v, stays, t, position, hc, rfl⟩
    · rintro ⟨v, stays, t, position, hc, rfl⟩
      exact ⟨_, ⟨v, stays, t, position, hc, rfl⟩, rfl⟩
  refine ⟨?_, hreport⟩
  rw [← g.exists_culprit_iff]
  constructor
  · rintro ⟨f, hf⟩
    obtain ⟨v, stays, t, position, hc, _⟩ := (hreport f).mp hf
    exact ⟨v, stays, t, position, hc⟩
  · rintro ⟨v, stays, t, position, hc⟩
    exact ⟨_, (hreport _).mpr ⟨v, stays, t, position, hc, rfl⟩⟩

end StateDiagram
