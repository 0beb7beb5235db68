import StateDiagram.Proofs.InputFaults
import StateDiagram.Proofs.Renaming

/-! Descriptions that differ in their ids and in the order of their entries. Both are ways to say
where an edge leads, and nothing of them is left in the graph but the numbers of its nodes, so the
drawings are the same text (`Description.drawing_of_rewrites`). -/
namespace StateDiagram

def NodeEntry.named (e : NodeEntry) : NodeEntry := { e with name := some e.shownName }

variable (f : String → String)

def EdgeEntry.rename (x : EdgeEntry) : EdgeEntry := { x with target := f x.target }

/-- The same entry with other ids. It is shown as before. -/
def NodeEntry.rename (e : NodeEntry) : NodeEntry where
  id := f e.id
  name := some e.shownName
  edges := e.edges.map (·.rename f)
  otherwise := e.otherwise.map f
  skipTo := e.skipTo.map f

/-- `c` has the entries of `d` with other ids, which still tell them apart, in any order. -/
structure Description.Rewrites (d c : Description) : Prop where
  injective : Function.Injective f
  root : c.root = f d.root
  nodes : (c.nodes.map NodeEntry.named).Perm (d.nodes.map (·.rename f))

variable {f}

section Entry

variable {ν : Type}

theorem NodeEntry.link_named (find? : String → Option ν) (e : NodeEntry) :
    e.named.link find? = e.link find? := rfl

theorem NodeEntry.edgeLists_rename_eq_ok_iff {find? : String → Option ν} {e : NodeEntry}
    {ess : List (List (Edge ν))} :
    (e.rename f).edgeLists find? = .ok ess ↔ (e.edgeLists fun id => find? (f id)) = .ok ess := by
  simp only [edgeLists_eq_ok_iff, rename, List.forall_mem_map, List.forall₂_map_left_iff]
  rfl

theorem NodeEntry.fallback_rename_eq_ok_iff {find? : String → Option ν} {e : NodeEntry}
    {b : Option (Fallback ν)} :
    (e.rename f).fallback find? = .ok b ↔ (e.fallback fun id => find? (f id)) = .ok b := by
  simp only [fallback_eq_ok_iff, rename]
  cases e.otherwise <;> cases e.skipTo <;> simp

theorem NodeEntry.link_rename_eq_ok_iff {find? : String → Option ν} {e : NodeEntry} {v : Node ν} :
    (e.rename f).link find? = .ok v ↔ (e.link fun id => find? (f id)) = .ok v := by
  simp only [link_eq_ok_iff, edgeLists_rename_eq_ok_iff, fallback_rename_eq_ok_iff]
  rfl

end Entry

theorem NodeEntry.valid_named_iff {ids : List String} {e : NodeEntry} :
    e.named.Valid ids ↔ e.Valid ids :=
  ⟨fun h => ⟨h.target, h.keyed, h.otherwise, h.skipTo, h.oneFallback⟩,
    fun h => ⟨h.target, h.keyed, h.otherwise, h.skipTo, h.oneFallback⟩⟩

theorem NodeEntry.valid_rename_iff {ids ids' : List String} (hids : ∀ id, f id ∈ ids' ↔ id ∈ ids)
    {e : NodeEntry} : (e.rename f).Valid ids' ↔ e.Valid ids := by
  constructor
  · intro h
    refine ⟨fun x hx => ?_, fun x hx => ?_, fun id hid => ?_, fun id hid => ?_, ?_⟩
    · exact (hids _).mp (h.target _ (List.mem_map_of_mem hx))
    · exact h.keyed (x.rename f) (List.mem_map_of_mem hx)
    · exact (hids id).mp (h.otherwise _ (by simp [rename, hid]))
    · exact (hids id).mp (h.skipTo _ (by simp [rename, hid]))
    · simpa [rename] using h.oneFallback
  · intro h
    refine ⟨fun x hx => ?_, fun x hx => ?_, fun id hid => ?_, fun id hid => ?_, ?_⟩
    · obtain ⟨y, hy, rfl⟩ := List.mem_map.mp hx
      exact (hids _).mpr (h.target y hy)
    · obtain ⟨y, hy, rfl⟩ := List.mem_map.mp hx
      exact h.keyed y hy
    · obtain ⟨other, ho, rfl⟩ := Option.map_eq_some_iff.mp hid
      exact (hids other).mpr (h.otherwise other ho)
    · obtain ⟨other, ho, rfl⟩ := Option.map_eq_some_iff.mp hid
      exact (hids other).mpr (h.skipTo other ho)
    · simpa [rename] using h.oneFallback

namespace Description.Rewrites

variable {d c : Description} (h : d.Rewrites f c)

include h

theorem ids_perm : c.ids.Perm (d.ids.map f) := by
  have hids := h.nodes.map (·.id)
  rw [List.map_map, List.map_map] at hids
  rw [ids, ids, List.map_map]
  exact hids

theorem mem_ids_iff (id : String) : f id ∈ c.ids ↔ id ∈ d.ids := by
  rw [h.ids_perm.mem_iff, List.mem_map_of_injective h.injective]

theorem nodup_ids_iff : c.ids.Nodup ↔ d.ids.Nodup := by
  rw [h.ids_perm.nodup_iff, List.nodup_map_iff h.injective]

theorem getD_root (root : Option String) : (root.map f).getD c.root = f (root.getD d.root) := by
  rw [h.root]
  cases root <;> rfl

theorem valid_iff (root : Option String) : c.Valid (root.map f) ↔ d.Valid root := by
  have hnamed : (∀ e ∈ c.nodes.map NodeEntry.named, e.Valid c.ids) ↔
      ∀ e ∈ c.nodes, e.Valid c.ids := by
    simp only [List.forall_mem_map, NodeEntry.valid_named_iff]
  have hentries : (∀ e ∈ c.nodes, e.Valid c.ids) ↔ ∀ e ∈ d.nodes, e.Valid d.ids := by
    rw [← hnamed]
    simp only [h.nodes.mem_iff, List.forall_mem_map, NodeEntry.valid_rename_iff h.mem_ids_iff]
  have hroot : (root.map f).getD c.root ∈ c.ids ↔ root.getD d.root ∈ d.ids := by
    rw [h.getD_root, h.mem_ids_iff]
  constructor
  · intro hv
    exact ⟨h.nodup_ids_iff.mp hv.distinct, hentries.mp hv.entry, hroot.mp hv.root⟩
  · intro hv
    exact ⟨h.nodup_ids_iff.mpr hv.distinct, hentries.mpr hv.entry, hroot.mpr hv.root⟩

theorem exists_places : ∃ place : Fin d.nodes.length → Fin c.nodes.length,
    ∀ t, (c.nodes.get (place t)).named = (d.nodes.get t).rename f := by
  have hplace (t : Fin d.nodes.length) :
      ∃ s : Fin c.nodes.length, (c.nodes.get s).named = (d.nodes.get t).rename f := by
    have hmem : (d.nodes.get t).rename f ∈ c.nodes.map NodeEntry.named :=
      h.nodes.mem_iff.mpr (List.mem_map_of_mem (List.get_mem _ _))
    obtain ⟨e, he, hnamed⟩ := List.mem_map.mp hmem
    obtain ⟨s, rfl⟩ := List.mem_iff_get.mp he
    exact ⟨s, hnamed⟩
  choose place hplace using hplace
  exact ⟨place, hplace⟩

variable {place : Fin d.nodes.length → Fin c.nodes.length}

/-- An id is found at the place of the entry that had it before. -/
theorem find?_eq (hd : d.ids.Nodup)
    (hplace : ∀ t, (c.nodes.get (place t)).named = (d.nodes.get t).rename f) (id : String) :
    c.find? (f id) = (d.find? id).map place := by
  have hid (t : Fin d.nodes.length) : (c.nodes.get (place t)).id = f (d.nodes.get t).id :=
    congrArg NodeEntry.id (hplace t)
  exact find?_of_places hd (h.nodup_ids_iff.mpr hd) hid h.mem_ids_iff id

theorem injective_place (hd : d.ids.Nodup)
    (hplace : ∀ t, (c.nodes.get (place t)).named = (d.nodes.get t).rename f) :
    Function.Injective place := by
  intro s t hst
  have hentry : (d.nodes.get s).rename f = (d.nodes.get t).rename f := by
    rw [← hplace, hst, hplace]
  have hid : (d.nodes.get s).id = (d.nodes.get t).id :=
    h.injective (congrArg NodeEntry.id hentry)
  have hfound := find?_id hd s
  rw [hid, find?_id hd t] at hfound
  exact (Option.some.inj hfound).symm

theorem exists_matches {root : Option String} {g : Graph d.nodes.length} {v : Fin d.nodes.length}
    {k : Graph c.nodes.length} {w : Fin c.nodes.length} (hg : d.link root = .ok (g, v))
    (hk : c.link (root.map f) = .ok (k, w)) : ∃ place, g.Matches v k w place := by
  obtain ⟨hd, hnodes, hroot⟩ := link_eq_ok_iff.mp hg
  obtain ⟨_, hnodes', hroot'⟩ := link_eq_ok_iff.mp hk
  obtain ⟨place, hplace⟩ := h.exists_places
  have hfind := h.find?_eq hd hplace
  refine ⟨place, .of_injective (h.injective_place hd hplace) ?_ fun t => ?_⟩
  · rw [h.getD_root, hfind, hroot] at hroot'
    exact Option.some.inj hroot'
  · have hentry := hnodes' (place t)
    rw [← NodeEntry.link_named, hplace, NodeEntry.link_rename_eq_ok_iff, funext hfind,
      NodeEntry.link_map, hnodes] at hentry
    exact (Except.ok.inj hentry).symm

end Description.Rewrites

/-- Other ids and another order of entries change neither whether a description can be linked nor
the text that is drawn, whatever the layout. -/
theorem Description.drawing_of_rewrites {f : String → String} {d c : Description}
    (h : d.Rewrites f c) (root : Option String) :
    ((∃ k w, c.link (root.map f) = .ok (k, w)) ↔ ∃ g v, d.link root = .ok (g, v)) ∧
      ∀ g v k w, d.link root = .ok (g, v) → c.link (root.map f) = .ok (k, w) → ∀ layout : Layout,
        ∃ text, (Renderer.new layout).outcome g v = .ok text ∧
          (Renderer.new layout).outcome k w = .ok text := by
  refine ⟨?_, fun g v k w hg hk layout => ?_⟩
  · rw [← Prod.exists', ← Prod.exists', c.exists_link_eq_ok_iff, d.exists_link_eq_ok_iff,
      h.valid_iff]
  · obtain ⟨place, hm⟩ := h.exists_matches hg hk
    have hdrawn : ∃ text, (Renderer.new layout).outcome g v = .ok text :=
      (Renderer.new layout).exists_outcome_of_keyed fun u _ => keyed_of_link hg u
    obtain ⟨text, htext⟩ := hdrawn
    refine ⟨text, htext, ?_⟩
    rw [← htext]
    simp only [Renderer.outcome, Renderer.draw, Renderer.new, hm.draw_eq]

def pair : Description :=
  ⟨"a", [⟨"a", some "na", [⟨"b", none, some "01", none, none, false⟩,
      ⟨"a", some "GET", none, none, none, true⟩], none, some "b"⟩,
    ⟨"b", some "na", [⟨"a", none, none, none, some 3, false⟩], some "a", none⟩]⟩

def pairReversed : Description :=
  ⟨"na", [⟨"nb", some "na", [⟨"na", none, none, none, some 3, false⟩], some "na", none⟩,
    ⟨"na", none, [⟨"nb", none, some "01", none, none, false⟩,
      ⟨"na", some "GET", none, none, none, true⟩], none, some "nb"⟩]⟩

theorem Description.drawing_of_pairReversed :
    pair.Rewrites ("n" ++ ·) pairReversed ∧
      ∃ g v k w, pair.link (some "b") = .ok (g, v) ∧ pairReversed.link (some "nb") = .ok (k, w) ∧
        ∀ layout : Layout, ∃ text, (Renderer.new layout).outcome g v = .ok text ∧
          (Renderer.new layout).outcome k w = .ok text := by
  have h : pair.Rewrites ("n" ++ ·) pairReversed :=
    { injective := fun s t hst => by simpa using hst
      root := rfl
      nodes := List.Perm.swap _ _ _ }
  obtain ⟨hlinked, hdrawn⟩ := Description.drawing_of_rewrites h (some "b")
  have hpair : ∃ g v, pair.link (some "b") = .ok (g, v) := ⟨_, _, rfl⟩
  obtain ⟨g, v, hg⟩ := hpair
  obtain ⟨k, w, hk⟩ := hlinked.mpr ⟨g, v, hg⟩
  exact ⟨h, g, v, k, w, hg, hk, hdrawn g v k w hg hk⟩

end StateDiagram
