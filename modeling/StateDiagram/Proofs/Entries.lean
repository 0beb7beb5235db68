import Mathlib.Data.List.Nodup
import StateDiagram.Proofs.KeyForms

/-! Linking taken apart: what it makes of an edge entry, of a node entry and of a description, and
all that can be wrong with an entry. Of an entry the first fault is reported
(`NodeEntry.fault?_link`), and what is made of it does not depend on how the nodes are numbered
(`NodeEntry.link_map`). -/
namespace StateDiagram

section Linking

variable {ν : Type}

def EdgeEntry.link (find? : String → Option ν) (holder : String) (x : EdgeEntry) (i : Nat) :
    Except LinkFault (List (Edge ν)) :=
  match find? x.target with
  | none => .error (.unknownTarget holder i x.target)
  | some t => (x.edges t).mapError (.badKey holder i)

theorem EdgeEntry.link_of_some {find? : String → Option ν} {x : EdgeEntry} {t : ν}
    (h : find? x.target = some t) (holder : String) (i : Nat) :
    x.link find? holder i = (x.edges t).mapError (.badKey holder i) := by
  rw [EdgeEntry.link, h]

theorem EdgeEntry.link_of_none {find? : String → Option ν} {x : EdgeEntry}
    (h : find? x.target = none) (holder : String) (i : Nat) :
    x.link find? holder i = .error (.unknownTarget holder i x.target) := by
  rw [EdgeEntry.link, h]

def NodeEntry.edgeLists (find? : String → Option ν) (e : NodeEntry) :
    Except LinkFault (List (List (Edge ν))) :=
  e.edges.zipIdx.mapM fun p => p.1.link find? e.id p.2

def NodeEntry.fallback (find? : String → Option ν) (e : NodeEntry) :
    Except LinkFault (Option (Fallback ν)) :=
  match e.otherwise, e.skipTo with
  | some _, some _ => .error (.twoFallbacks e.id)
  | some id, none => NodeEntry.link.linkFallback find? id true
  | none, some id => NodeEntry.link.linkFallback find? id false
  | none, none => .ok none

theorem NodeEntry.link_eq (find? : String → Option ν) (e : NodeEntry) :
    e.link find? = do
      let edges ← e.edgeLists find?
      let fallback ← e.fallback find?
      return ⟨e.shownName, edges.flatten, fallback⟩ := by
  rw [NodeEntry.link]
  congr 1
  funext edges
  rw [NodeEntry.fallback]
  cases e.otherwise <;> cases e.skipTo <;> rfl

variable {μ : Type} (f : ν → μ)

theorem EdgeEntry.edges_map (x : EdgeEntry) (t : ν) :
    x.edges (f t) = (x.edges t).map (·.map (·.map f)) := by
  rw [edges, edges]
  cases x.keys with
  | error _ => rfl
  | ok given => simp [Except.map, Edge.map]

theorem EdgeEntry.link_map (find? : String → Option ν) (holder : String) (x : EdgeEntry) (i : Nat) :
    x.link (fun id => (find? id).map f) holder i =
      (x.link find? holder i).map (·.map (·.map f)) := by
  cases ht : find? x.target with
  | none => rw [link_of_none ht, link_of_none (by rw [ht]; rfl)]; rfl
  | some t =>
    rw [link_of_some ht, link_of_some (t := f t) (by rw [ht]; rfl), edges_map]
    cases x.edges t <;> rfl

theorem NodeEntry.edgeLists_map (find? : String → Option ν) (e : NodeEntry) :
    e.edgeLists (fun id => (find? id).map f) =
      (e.edgeLists find?).map (·.map (·.map (·.map f))) := by
  simp only [edgeLists, EdgeEntry.link_map]
  exact mapM_map_result _ _

theorem NodeEntry.fallback_map (find? : String → Option ν) (e : NodeEntry) :
    e.fallback (fun id => (find? id).map f) = (e.fallback find?).map (·.map (·.map f)) := by
  have hlink (id : String) (stays : Bool) :
      NodeEntry.link.linkFallback (fun id => (find? id).map f) id stays =
        (NodeEntry.link.linkFallback find? id stays).map (·.map (·.map f)) := by
    rw [NodeEntry.link.linkFallback, NodeEntry.link.linkFallback]
    cases find? id <;> rfl
  rw [fallback, fallback]
  cases e.otherwise <;> cases e.skipTo <;> first | rfl | exact hlink _ _

theorem NodeEntry.link_map (find? : String → Option ν) (e : NodeEntry) :
    e.link (fun id => (find? id).map f) = (e.link find?).map (·.map f) := by
  rw [link_eq, link_eq, edgeLists_map, fallback_map]
  cases e.edgeLists find? with
  | error _ => rfl
  | ok ess =>
    cases e.fallback find? with
    | error _ => rfl
    | ok b => simp [Except.map, bind, Except.bind, pure, Except.pure, Node.map, List.map_flatten]

end Linking

/-- All that is wrong with an edge entry, where `ids` are the ids of nodes. -/
def EdgeEntry.faults (ids : List String) (holder : String) (x : EdgeEntry) (i : Nat) :
    List LinkFault :=
  (if ids.contains x.target then [] else [.unknownTarget holder i x.target]) ++
    x.keyFaults.map (.badKey holder i)

namespace NodeEntry

def fallbackIds (e : NodeEntry) : List String := e.otherwise.toList ++ e.skipTo.toList

def edgeFaults (ids : List String) (e : NodeEntry) : List LinkFault :=
  e.edges.zipIdx.flatMap fun p => p.1.faults ids e.id p.2

def fallbackFaults (ids : List String) (e : NodeEntry) : List LinkFault :=
  (if e.otherwise.isSome && e.skipTo.isSome then [.twoFallbacks e.id] else []) ++
    (e.fallbackIds.filter fun id => !ids.contains id).map LinkFault.unknownFallback

def faults (ids : List String) (e : NodeEntry) : List LinkFault :=
  e.edgeFaults ids ++ e.fallbackFaults ids

end NodeEntry

section Faults

variable {ν : Type} {find? : String → Option ν} {ids : List String}

section Reports

variable (hfind : ∀ id, (find? id).isSome = ids.contains id)

include hfind

theorem EdgeEntry.fault?_link (holder : String) (x : EdgeEntry) (i : Nat) :
    fault? (x.link find? holder i) = (x.faults ids holder i).head? := by
  have hknown := hfind x.target
  rw [faults, ← hknown]
  cases ht : find? x.target with
  | none =>
    rw [link_of_none ht]
    rfl
  | some t =>
    rw [link_of_some ht, fault?_mapError, fault?_edges, Option.isSome_some, if_pos rfl,
      List.nil_append, List.head?_map]

theorem NodeEntry.fault?_edgeLists (e : NodeEntry) :
    fault? (e.edgeLists find?) = (e.edgeFaults ids).head? := by
  rw [edgeLists, edgeFaults, fault?_mapM, List.head?_flatMap]
  simp only [EdgeEntry.fault?_link hfind]

theorem NodeEntry.fault?_fallback (e : NodeEntry) :
    fault? (e.fallback find?) = (e.fallbackFaults ids).head? := by
  have hlink (id : String) (stays : Bool) : fault? (link.linkFallback find? id stays) =
      (([id].filter fun id => !ids.contains id).map LinkFault.unknownFallback).head? := by
    have hknown := hfind id
    rw [link.linkFallback, List.filter_singleton, ← hknown]
    cases find? id <;> rfl
  rw [fallback, fallbackFaults, fallbackIds]
  cases e.otherwise with
  | some id =>
    cases e.skipTo with
    | some _ => rfl
    | none => exact hlink id true
  | none =>
    cases e.skipTo with
    | some id => exact hlink id false
    | none => rfl

/-- Of all that is wrong with an entry the first is reported. -/
theorem NodeEntry.fault?_link (e : NodeEntry) :
    fault? (e.link find?) = (e.faults ids).head? := by
  have hrest (ess : List (List (Edge ν))) : fault? (do
      let fallback ← e.fallback find?
      return (⟨e.shownName, ess.flatten, fallback⟩ : Node ν)) = fault? (e.fallback find?) :=
    fault?_bind_pure _ _
  rw [link_eq, fault?_bind hrest, fault?_edgeLists hfind, fault?_fallback hfind, faults,
    List.head?_append]

end Reports

namespace NodeEntry

theorem mem_edgeFaults {e : NodeEntry} {f : LinkFault} (h : f ∈ e.edgeFaults ids) :
    ∃ x i, e.edges[i]? = some x ∧
      ((x.target ∉ ids ∧ f = .unknownTarget e.id i x.target) ∨
        ∃ k ∈ x.keyFaults, f = .badKey e.id i k) := by
  obtain ⟨⟨x, i⟩, hplace, hf⟩ := List.mem_flatMap.mp h
  refine ⟨x, i, List.mk_mem_zipIdx_iff_getElem?.mp hplace, ?_⟩
  rcases List.mem_append.mp hf with htarget | hkey
  · by_cases hx : x.target ∈ ids <;> simp [hx] at htarget
    exact .inl ⟨hx, htarget⟩
  · obtain ⟨k, hk, rfl⟩ := List.mem_map.mp hkey
    exact .inr ⟨k, hk, rfl⟩

theorem mem_fallbackFaults {e : NodeEntry} {f : LinkFault} (h : f ∈ e.fallbackFaults ids) :
    f = .twoFallbacks e.id ∨ ∃ id ∈ e.fallbackIds, id ∉ ids ∧ f = .unknownFallback id := by
  rcases List.mem_append.mp h with hboth | hunknown
  · split at hboth
    · exact .inl (List.mem_singleton.mp hboth)
    · cases hboth
  · obtain ⟨id, hid, rfl⟩ := List.mem_map.mp hunknown
    obtain ⟨hid, hnot⟩ := List.mem_filter.mp hid
    exact .inr ⟨id, hid, by simpa using hnot, rfl⟩

theorem nodesMade_of_mem_faults {e : NodeEntry} {f : LinkFault} (h : f ∈ e.faults ids)
    (total : Nat) : f.nodesMade total = total := by
  rcases List.mem_append.mp h with hedge | hfallback
  · obtain ⟨x, i, _, ⟨_, rfl⟩ | ⟨k, _, rfl⟩⟩ := mem_edgeFaults hedge <;> rfl
  · obtain rfl | ⟨id, _, _, rfl⟩ := mem_fallbackFaults hfallback <;> rfl

structure Valid (ids : List String) (e : NodeEntry) : Prop where
  target : ∀ x ∈ e.edges, x.target ∈ ids
  keyed : ∀ x ∈ e.edges, x.WellKeyed
  otherwise : ∀ id, e.otherwise = some id → id ∈ ids
  skipTo : ∀ id, e.skipTo = some id → id ∈ ids
  oneFallback : e.otherwise = none ∨ e.skipTo = none

theorem edgeFaults_eq_nil_iff {e : NodeEntry} :
    e.edgeFaults ids = [] ↔ ∀ x ∈ e.edges, x.target ∈ ids ∧ x.WellKeyed := by
  have hedge (x : EdgeEntry) (i : Nat) :
      x.faults ids e.id i = [] ↔ x.target ∈ ids ∧ x.WellKeyed := by
    rw [EdgeEntry.faults, List.append_eq_nil_iff, List.map_eq_nil_iff,
      EdgeEntry.keyFaults_eq_nil_iff]
    simp
  simp only [edgeFaults, List.flatMap_eq_nil_iff, hedge]
  constructor
  · intro h x hx
    obtain ⟨i, hi⟩ := List.getElem?_of_mem hx
    exact h (x, i) (List.mk_mem_zipIdx_iff_getElem?.mpr hi)
  · intro h p hp
    exact h p.1 (List.fst_mem_of_mem_zipIdx hp)

theorem fallbackFaults_eq_nil_iff {e : NodeEntry} :
    e.fallbackFaults ids = [] ↔
      (∀ id, e.otherwise = some id → id ∈ ids) ∧ (∀ id, e.skipTo = some id → id ∈ ids) ∧
        (e.otherwise = none ∨ e.skipTo = none) := by
  simp only [fallbackFaults, fallbackIds]
  cases e.otherwise <;> cases e.skipTo <;> simp

theorem faults_eq_nil_iff {e : NodeEntry} : e.faults ids = [] ↔ e.Valid ids := by
  rw [faults, List.append_eq_nil_iff, edgeFaults_eq_nil_iff, fallbackFaults_eq_nil_iff]
  constructor
  · rintro ⟨hedges, hotherwise, hskip, hone⟩
    exact ⟨fun x hx => (hedges x hx).1, fun x hx => (hedges x hx).2, hotherwise, hskip, hone⟩
  · intro h
    exact ⟨fun x hx => ⟨h.target x hx, h.keyed x hx⟩, h.otherwise, h.skipTo, h.oneFallback⟩

end NodeEntry
end Faults

namespace Description

variable (d : Description)

def ids : List String := d.nodes.map (·.id)

theorem find?_id {d : Description} (h : d.ids.Nodup) (t : Fin d.nodes.length) :
    d.find? (d.nodes.get t).id = some t := by
  rw [find?, List.findFinIdx?_eq_some_iff]
  refine ⟨by simp, fun j hj hid => ?_⟩
  have hsame : d.ids[j.val]? = d.ids[t.val]? := by simpa [ids] using hid
  exact List.nodup_iff_getElem?_ne_getElem?.mp h j t hj (by simp [ids]) hsame

theorem isSome_find? (id : String) : (d.find? id).isSome = d.ids.contains id := by
  rw [find?, List.isSome_findFinIdx?, ids, Bool.eq_iff_iff]
  simp

/-- The root that is asked for, or else the one described. -/
def linkRoot (root : Option String) : Except LinkFault (Fin d.nodes.length) :=
  match d.find? (root.getD d.root) with
  | none => .error (.unknownRoot (root.getD d.root))
  | some v => .ok v

def linked (root : Option String) :
    Except LinkFault (List (Node (Fin d.nodes.length)) × Fin d.nodes.length) :=
  match firstRepeated? [] d.ids with
  | some (id, position) => .error (.repeatedId id position)
  | none => do
    let nodes ← d.nodes.mapM (NodeEntry.link d.find?)
    let v ← d.linkRoot root
    return (nodes, v)

theorem map_toList_link (root : Option String) :
    ((d.link root).map fun p => (p.1.nodes.toList, p.2)) = d.linked root := by
  rw [link, linked, ids]
  cases firstRepeated? [] (d.nodes.map (·.id)) with
  | some repeated => rfl
  | none =>
    simp only
    -- The match in `link` carries its equation: the attempt can only be replaced after the split.
    split
    · rename_i f hnodes
      have hnodes' : d.nodes.mapM (NodeEntry.link d.find?) = .error f := hnodes
      rw [hnodes']
      rfl
    · rename_i nodes hnodes
      have hnodes' : d.nodes.mapM (NodeEntry.link d.find?) = .ok nodes := hnodes
      conv_rhs => rw [hnodes', linkRoot]
      cases d.find? (root.getD d.root) <;> rfl

end Description
end StateDiagram
