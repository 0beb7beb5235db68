import StateDiagram.Proofs.Validity

/-! What a description says about a graph, and that linking makes exactly the graph it says. Ids are
resolved by a relation (`Description.Names`); no order of nodes, no table and no first pass is
involved, so entries may name themselves, later ones and each other. -/
namespace StateDiagram

namespace Description

variable (d : Description)

def Names (id : String) (t : Fin d.nodes.length) : Prop := (d.nodes.get t).id = id

/-- A node is as an entry says: shown under its name, with the edges that its edge entries stand
for, one after the other, and with the fallback it names. -/
structure Describes (e : NodeEntry) (v : Node (Fin d.nodes.length)) : Prop where
  name : v.name = e.name.getD e.id
  edges : ∃ ess, v.edges = ess.flatten ∧
    List.Forall₂ (fun x es => ∃ t, d.Names x.target t ∧ es = x.expansion t) e.edges ess
  otherwise : ∀ id, e.otherwise = some id → ∃ t, d.Names id t ∧ v.fallback = some ⟨t, true⟩
  skipTo : ∀ id, e.skipTo = some id → ∃ t, d.Names id t ∧ v.fallback = some ⟨t, false⟩
  noFallback : e.otherwise = none → e.skipTo = none → v.fallback = none

end Description

section Entry

variable {ν : Type} {find? : String → Option ν}

theorem EdgeEntry.link_eq_ok_iff {holder : String} {x : EdgeEntry} {i : Nat} {es : List (Edge ν)} :
    x.link find? holder i = .ok es ↔
      x.WellKeyed ∧ ∃ t, find? x.target = some t ∧ es = x.expansion t := by
  cases ht : find? x.target with
  | none => simp [link_of_none ht]
  | some t =>
    rw [link_of_some ht, mapError_eq_ok_iff, edges_eq_ok_iff]
    simp

namespace NodeEntry

theorem edgeLists_eq_ok_iff {e : NodeEntry} {ess : List (List (Edge ν))} :
    e.edgeLists find? = .ok ess ↔
      (∀ x ∈ e.edges, x.WellKeyed) ∧ List.Forall₂
        (fun x es => ∃ t, find? x.target = some t ∧ es = x.expansion t) e.edges ess := by
  rw [edgeLists, mapM_eq_ok_iff]
  simp only [EdgeEntry.link_eq_ok_iff]
  rw [← List.forall₂_and_left]
  conv_rhs => rw [← List.zipIdx_map_fst 0 e.edges, List.forall₂_map_left_iff]

theorem fallback_eq_ok_iff {e : NodeEntry} {b : Option (Fallback ν)} :
    e.fallback find? = .ok b ↔
      (e.otherwise = none ∨ e.skipTo = none) ∧
        (∀ id, e.otherwise = some id → ∃ t, find? id = some t ∧ b = some ⟨t, true⟩) ∧
        (∀ id, e.skipTo = some id → ∃ t, find? id = some t ∧ b = some ⟨t, false⟩) ∧
        (e.otherwise = none → e.skipTo = none → b = none) := by
  have hlink (id : String) (stays : Bool) : link.linkFallback find? id stays = .ok b ↔
      ∃ t, find? id = some t ∧ b = some ⟨t, stays⟩ := by
    rw [link.linkFallback]
    cases find? id <;> simp [eq_comm]
  rw [fallback]
  cases e.otherwise <;> cases e.skipTo <;> simp [hlink, eq_comm]

theorem link_eq_ok_iff {e : NodeEntry} {v : Node ν} :
    e.link find? = .ok v ↔
      ∃ ess b, e.edgeLists find? = .ok ess ∧ e.fallback find? = .ok b ∧
        v = ⟨e.shownName, ess.flatten, b⟩ := by
  rw [link_eq]
  cases e.edgeLists find? <;> cases e.fallback find? <;>
    simp [bind, Except.bind, pure, Except.pure, eq_comm]

end NodeEntry
end Entry

namespace Description

variable {d : Description}

theorem find?_eq_some_iff (h : d.ids.Nodup) {id : String} {t : Fin d.nodes.length} :
    d.find? id = some t ↔ d.Names id t := by
  constructor
  · intro ht
    rw [find?, List.findFinIdx?_eq_some_iff] at ht
    exact beq_iff_eq.mp ht.1
  · rintro rfl
    exact find?_id h t

/-- Where the entries of one description have places among those of another, under ids that tell
them apart, an id is found at the place of its entry. -/
theorem find?_of_places {c : Description} {f : String → String}
    {place : Fin d.nodes.length → Fin c.nodes.length} (hd : d.ids.Nodup) (hc : c.ids.Nodup)
    (hid : ∀ t, (c.nodes.get (place t)).id = f (d.nodes.get t).id)
    (hknown : ∀ id, f id ∈ c.ids ↔ id ∈ d.ids) (id : String) :
    c.find? (f id) = (d.find? id).map place := by
  cases ht : d.find? id with
  | some t =>
    have hname : d.Names id t := (find?_eq_some_iff hd).mp ht
    refine (find?_eq_some_iff hc).mpr ?_
    rw [Names, hid, hname]
  | none =>
    have hsome := d.isSome_find? id
    have hcontains : c.ids.contains (f id) = d.ids.contains id := by
      rw [Bool.eq_iff_iff, List.contains_iff_mem, List.contains_iff_mem, hknown]
    rw [ht, ← hcontains, ← c.isSome_find?] at hsome
    exact Option.isNone_iff_eq_none.mp (by simpa using hsome)

theorem link_entry_eq_ok_iff (h : d.ids.Nodup) {e : NodeEntry} {v : Node (Fin d.nodes.length)} :
    e.link d.find? = .ok v ↔
      (∀ x ∈ e.edges, x.WellKeyed) ∧ (e.otherwise = none ∨ e.skipTo = none) ∧
        d.Describes e v := by
  rw [NodeEntry.link_eq_ok_iff]
  simp only [NodeEntry.edgeLists_eq_ok_iff, NodeEntry.fallback_eq_ok_iff, find?_eq_some_iff h]
  constructor
  · rintro ⟨ess, b, ⟨hkeyed, hess⟩, ⟨hone, hotherwise, hskip, hnone⟩, rfl⟩
    exact ⟨hkeyed, hone, ⟨rfl, ⟨ess, rfl, hess⟩, hotherwise, hskip, hnone⟩⟩
  · rintro ⟨hkeyed, hone, hd⟩
    obtain ⟨ess, hedges, hess⟩ := hd.edges
    refine ⟨ess, v.fallback, ⟨hkeyed, hess⟩, ⟨hone, hd.otherwise, hd.skipTo, hd.noFallback⟩, ?_⟩
    rw [NodeEntry.shownName, ← hd.name, ← hedges]

theorem linked_eq_ok_iff {root : Option String} {nodes : List (Node (Fin d.nodes.length))}
    {v : Fin d.nodes.length} :
    d.linked root = .ok (nodes, v) ↔
      d.ids.Nodup ∧ d.nodes.mapM (NodeEntry.link d.find?) = .ok nodes ∧
        d.find? (root.getD d.root) = some v := by
  have hdistinct : firstRepeated? [] d.ids = none ↔ d.ids.Nodup := by
    simp [firstRepeated?_eq_none_iff]
  rw [linked, linkRoot, ← hdistinct]
  cases firstRepeated? [] d.ids with
  | some _ => simp
  | none =>
    cases d.nodes.mapM (NodeEntry.link d.find?) <;> cases d.find? (root.getD d.root) <;>
      simp [bind, Except.bind, pure, Except.pure]

theorem mapM_link_eq_ok_iff {g : Graph d.nodes.length} :
    d.nodes.mapM (NodeEntry.link d.find?) = .ok g.nodes.toList ↔
      ∀ t : Fin d.nodes.length, NodeEntry.link d.find? (d.nodes.get t) = .ok (g.node t) := by
  rw [mapM_eq_ok_iff, List.forall₂_iff_get]
  simp only [Vector.length_toList, true_and]
  constructor
  · intro h t
    simpa [Graph.node] using h t.val t.isLt t.isLt
  · intro h i hi _
    simpa [Graph.node] using h ⟨i, hi⟩

theorem link_eq_ok_iff {root : Option String} {g : Graph d.nodes.length} {v : Fin d.nodes.length} :
    d.link root = .ok (g, v) ↔
      d.ids.Nodup ∧
        (∀ t : Fin d.nodes.length, NodeEntry.link d.find? (d.nodes.get t) = .ok (g.node t)) ∧
        d.find? (root.getD d.root) = some v := by
  rw [← mapM_link_eq_ok_iff, ← linked_eq_ok_iff, ← map_toList_link]
  constructor
  · intro h
    rw [h]
    rfl
  · intro h
    cases hlink : d.link root with
    | error f => rw [hlink] at h; cases h
    | ok linked =>
      obtain ⟨⟨nodes⟩, w⟩ := linked
      rw [hlink] at h
      obtain ⟨hnodes, rfl⟩ := Prod.mk.inj (Except.ok.inj h)
      rw [Vector.toList_inj] at hnodes
      subst hnodes
      rfl

end Description

/-- Linking gives a graph and a root exactly if the description is valid and the graph is the one
described: each node is as the entry at its position says, and the root is the node of the id that
is asked for, or else of the one described. Made step by step, the nodes come out the same. -/
theorem Description.link_eq_ok_iff_describes (d : Description) (root : Option String)
    (g : Graph d.nodes.length) (v : Fin d.nodes.length) :
    (d.link root = .ok (g, v) ↔
        d.Valid root ∧ (∀ t : Fin d.nodes.length, d.Describes (d.nodes.get t) (g.node t)) ∧
          d.Names (root.getD d.root) v) ∧
      (d.link root = .ok (g, v) →
        d.construct root [] = .ok v.val (g.nodes.toList.map (·.map Fin.val))) := by
  refine ⟨?_, d.construct_of_link_eq_ok⟩
  constructor
  · intro h
    have hvalid : d.Valid root := (d.exists_link_eq_ok_iff root).mp ⟨_, h⟩
    obtain ⟨hdistinct, hnodes, hroot⟩ := link_eq_ok_iff.mp h
    refine ⟨hvalid, fun t => ?_, (find?_eq_some_iff hdistinct).mp hroot⟩
    exact ((link_entry_eq_ok_iff hdistinct).mp (hnodes t)).2.2
  · rintro ⟨hvalid, hnodes, hroot⟩
    refine link_eq_ok_iff.mpr ⟨hvalid.distinct, fun t => ?_,
      (find?_eq_some_iff hvalid.distinct).mpr hroot⟩
    have hentry : (d.nodes.get t).Valid d.ids := hvalid.entry _ (by simp)
    exact (link_entry_eq_ok_iff hvalid.distinct).mpr ⟨hentry.keyed, hentry.oneFallback, hnodes t⟩

/-- Two nodes that are shown alike and name each other and themselves. -/
example : ((Description.link ⟨"a", [
      ⟨"a", none, [⟨"b", none, some "01", none, none, false⟩,
        ⟨"a", some "GET", none, none, none, true⟩], none, some "b"⟩,
      ⟨"b", some "a", [⟨"a", none, none, none, some 3, false⟩,
        ⟨"b", none, none, some [0, 255], none, false⟩], some "a", none⟩]⟩
      (some "b")).map fun p => (p.1.nodes.toList, p.2)) =
    .ok ([
      ⟨"a", [⟨1, some (.bytes [48]), false⟩, ⟨1, some (.bytes [49]), false⟩,
        ⟨0, some (.bytes [71, 69, 84]), true⟩], some ⟨1, false⟩⟩,
      ⟨"a", [⟨0, some (.code 3), true⟩, ⟨1, some (.bytes [0, 255]), false⟩],
        some ⟨0, true⟩⟩], 1) := by
  rfl

end StateDiagram
