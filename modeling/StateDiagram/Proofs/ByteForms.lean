import StateDiagram.Proofs.InputFaults
import StateDiagram.Proofs.Renaming

/-! Texts among the keys of a description, written as the bytes they stand for. A text to match is
its bytes as a whole, and a text of which each byte is matched is an entry for each byte, in its
place among the others. Entries that say the same give the same edges (`EdgeEntry.Restates`), so
the graphs are equal and so are their drawings (`Description.drawing_of_inBytes`). -/
namespace StateDiagram

namespace KeyForm

/-- The forms that say the same without any text. -/
def inBytes : KeyForm → List KeyForm
  | literal text => [.bytes (utf8 text)]
  | anyOf text => (utf8 text).map fun b => .bytes [b]
  | bytes bs => [.bytes bs]
  | code c => [.code c]

theorem flatMap_keys_inBytes (form : KeyForm) : form.inBytes.flatMap keys = form.keys := by
  cases form with
  | literal text => rfl
  | anyOf text =>
    rw [inBytes, keys, List.flatMap_map]
    exact List.map_eq_flatMap.symm
  | bytes bs => rfl
  | code c => rfl

theorem isCode_of_mem_inBytes {form other : KeyForm} (h : other ∈ form.inBytes) :
    other.isCode = form.isCode := by
  cases form with
  | literal text => rw [List.mem_singleton.mp h]; rfl
  | anyOf text =>
    obtain ⟨b, _, rfl⟩ := List.mem_map.mp h
    rfl
  | bytes bs => rw [List.mem_singleton.mp h]
  | code c => rw [List.mem_singleton.mp h]

theorem isEmpty_of_mem_inBytes {form other : KeyForm} (hform : form.isEmpty = false)
    (h : other ∈ form.inBytes) : other.isEmpty = false := by
  cases form with
  | literal text =>
    rw [List.mem_singleton.mp h]
    simpa [isEmpty, utf8_eq_nil_iff] using hform
  | anyOf text =>
    obtain ⟨b, _, rfl⟩ := List.mem_map.mp h
    rfl
  | bytes bs => rwa [List.mem_singleton.mp h]
  | code c => rw [List.mem_singleton.mp h]; rfl

end KeyForm

namespace EdgeEntry

/-- Entries that lead where an entry does, on the same keys in the same order. -/
structure Restates (x : EdgeEntry) (ys : List EdgeEntry) : Prop where
  target : ∀ y ∈ ys, y.target = x.target
  keyed : ∀ y ∈ ys, y.WellKeyed
  expansion : ∀ {ν : Type} (t : ν), ys.flatMap (·.expansion t) = x.expansion t

def inBytes (x : EdgeEntry) : List EdgeEntry :=
  match x.literal, x.anyOf with
  | some text, _ => [{ x with literal := none, bytes := some (utf8 text) }]
  | none, some text => (utf8 text).map fun b => { x with anyOf := none, bytes := some [b] }
  | none, none => [x]

theorem inBytes_entry (target : String) (peek : Bool) (form : KeyForm) :
    (form.entry target peek).inBytes = form.inBytes.map (·.entry target peek) := by
  cases form with
  | literal text => rfl
  | anyOf text =>
    rw [KeyForm.inBytes, List.map_map]
    rfl
  | bytes bs => rfl
  | code c => rfl

theorem expansion_entry {ν : Type} (target : String) (peek : Bool) (form : KeyForm) (t : ν) :
    (form.entry target peek).expansion t =
      form.keys.map fun k => ⟨t, some k, form.isCode || peek⟩ := by
  rw [expansion, KeyForm.forms_entry, List.flatMap_singleton, KeyForm.peek_entry]

theorem expansion_inBytes {ν : Type} (target : String) (peek : Bool) (form : KeyForm) (t : ν) :
    (form.entry target peek).inBytes.flatMap (·.expansion t) =
      (form.entry target peek).expansion t := by
  -- No form turns into a code, so an edge leaves the input where it is just as before.
  have hexpand (other : KeyForm) (hother : other ∈ form.inBytes) :
      (other.entry target peek).expansion t =
        other.keys.map fun k => ⟨t, some k, form.isCode || peek⟩ := by
    rw [expansion_entry, KeyForm.isCode_of_mem_inBytes hother]
  calc (form.entry target peek).inBytes.flatMap (·.expansion t)
      = form.inBytes.flatMap fun other =>
          other.keys.map fun k => ⟨t, some k, form.isCode || peek⟩ := by
        rw [inBytes_entry, List.flatMap_map, List.flatMap_congr hexpand]
    _ = (form.inBytes.flatMap KeyForm.keys).map fun k => ⟨t, some k, form.isCode || peek⟩ := by
        rw [List.map_flatMap]
    _ = (form.entry target peek).expansion t := by
        rw [KeyForm.flatMap_keys_inBytes, expansion_entry]

theorem restates_self {x : EdgeEntry} (h : x.WellKeyed) : x.Restates [x] where
  target y hy := by rw [List.mem_singleton.mp hy]
  keyed y hy := by rwa [List.mem_singleton.mp hy]
  expansion t := List.flatMap_singleton _ _

theorem restates_inBytes {x : EdgeEntry} (h : x.WellKeyed) : x.Restates x.inBytes := by
  obtain ⟨form, hform, hempty, hpeek⟩ := h
  obtain ⟨target, peek, rfl⟩ := exists_entry_of_forms hform
  have hmem {y : EdgeEntry} (hy : y ∈ (form.entry target peek).inBytes) :
      ∃ other ∈ form.inBytes, other.entry target peek = y := by
    rw [inBytes_entry] at hy
    exact List.mem_map.mp hy
  refine ⟨fun y hy => ?_, fun y hy => ?_, expansion_inBytes target peek form⟩
  · obtain ⟨other, _, rfl⟩ := hmem hy
    simp only [KeyForm.target_entry]
  · obtain ⟨other, hother, rfl⟩ := hmem hy
    refine ⟨other, KeyForm.forms_entry target peek other,
      KeyForm.isEmpty_of_mem_inBytes hempty hother, fun hcode => ?_⟩
    rw [KeyForm.peek_entry] at hpeek ⊢
    exact hpeek (KeyForm.isCode_of_mem_inBytes hother ▸ hcode)

/-- The edges of an entry, as far as its target is known. -/
def expansionIn {ν : Type} (find? : String → Option ν) (x : EdgeEntry) : List (Edge ν) :=
  (find? x.target).toList.flatMap x.expansion

theorem Restates.expansionIn {ν : Type} {x : EdgeEntry} {ys : List EdgeEntry} (h : x.Restates ys)
    (find? : String → Option ν) : ys.flatMap (·.expansionIn find?) = x.expansionIn find? := by
  have htarget (y : EdgeEntry) (hy : y ∈ ys) :
      y.expansionIn find? = (find? x.target).toList.flatMap y.expansion := by
    rw [EdgeEntry.expansionIn, h.target y hy]
  rw [List.flatMap_congr htarget, EdgeEntry.expansionIn]
  cases find? x.target with
  | none => simp
  | some t => simp [h.expansion]

end EdgeEntry

namespace NodeEntry

variable {ν : Type} {find? : String → Option ν} {e : NodeEntry} {v : Node ν}

theorem edgeLists_eq_ok_iff_expansionIn {ess : List (List (Edge ν))} :
    e.edgeLists find? = .ok ess ↔
      (∀ x ∈ e.edges, x.WellKeyed ∧ (find? x.target).isSome) ∧
        ess = e.edges.map (·.expansionIn find?) := by
  have hentry (x : EdgeEntry) (es : List (Edge ν)) :
      (∃ t, find? x.target = some t ∧ es = x.expansion t) ↔
        (find? x.target).isSome ∧ x.expansionIn find? = es := by
    cases ht : find? x.target <;> simp [EdgeEntry.expansionIn, ht, eq_comm]
  rw [edgeLists_eq_ok_iff]
  simp only [hentry, List.forall₂_and_left]
  rw [← List.forall₂_map_left_iff (f := fun x : EdgeEntry => x.expansionIn find?),
    List.forall₂_eq_eq_eq, ← and_assoc, ← forall₂_and, eq_comm]

def inBytes (chosen : Nat → Bool) (e : NodeEntry) : NodeEntry :=
  { e with edges := e.edges.zipIdx.flatMap fun p => if chosen p.2 then p.1.inBytes else [p.1] }

section InBytes

variable {chosen : Nat → Bool}

theorem restates_of_chosen {x : EdgeEntry} (h : x.WellKeyed) (i : Nat) :
    x.Restates (if chosen i then x.inBytes else [x]) := by
  by_cases hi : chosen i
  · rw [if_pos hi]
    exact EdgeEntry.restates_inBytes h
  · rw [if_neg hi]
    exact EdgeEntry.restates_self h

theorem exists_restates_of_mem_edges_inBytes (h : ∀ x ∈ e.edges, x.WellKeyed) {y : EdgeEntry}
    (hy : y ∈ (e.inBytes chosen).edges) : ∃ x ∈ e.edges, ∃ ys, x.Restates ys ∧ y ∈ ys := by
  obtain ⟨⟨x, i⟩, hplace, hy⟩ := List.mem_flatMap.mp hy
  have hx : x ∈ e.edges := List.fst_mem_of_mem_zipIdx hplace
  exact ⟨x, hx, _, restates_of_chosen (h x hx) i, hy⟩

theorem flatMap_expansionIn_inBytes (h : ∀ x ∈ e.edges, x.WellKeyed) :
    (e.inBytes chosen).edges.flatMap (·.expansionIn find?) =
      e.edges.flatMap (·.expansionIn find?) := by
  have hplace (p : EdgeEntry × Nat) (hp : p ∈ e.edges.zipIdx) :
      (if chosen p.2 then p.1.inBytes else [p.1]).flatMap (·.expansionIn find?) =
        p.1.expansionIn find? :=
    (restates_of_chosen (h p.1 (List.fst_mem_of_mem_zipIdx hp)) p.2).expansionIn find?
  calc (e.inBytes chosen).edges.flatMap (·.expansionIn find?)
      = e.edges.zipIdx.flatMap fun p => p.1.expansionIn find? := by
        rw [inBytes, List.flatMap_assoc, List.flatMap_congr hplace]
    _ = (e.edges.zipIdx.map Prod.fst).flatMap (·.expansionIn find?) := by rw [List.flatMap_map]
    _ = e.edges.flatMap (·.expansionIn find?) := by rw [List.zipIdx_map_fst]

/-- An entry that can be linked can be linked in bytes, and the node is the same. -/
theorem link_inBytes (h : e.link find? = .ok v) : (e.inBytes chosen).link find? = .ok v := by
  obtain ⟨ess, b, hess, hb, rfl⟩ := link_eq_ok_iff.mp h
  obtain ⟨hgood, rfl⟩ := edgeLists_eq_ok_iff_expansionIn.mp hess
  have hkeyed : ∀ x ∈ e.edges, x.WellKeyed := fun x hx => (hgood x hx).1
  refine link_eq_ok_iff.mpr ⟨_, b, edgeLists_eq_ok_iff_expansionIn.mpr ⟨fun y hy => ?_, rfl⟩, hb, ?_⟩
  · obtain ⟨x, hx, ys, hys, hmem⟩ := exists_restates_of_mem_edges_inBytes hkeyed hy
    exact ⟨hys.keyed y hmem, hys.target y hmem ▸ (hgood x hx).2⟩
  · rw [← List.flatMap_def, ← List.flatMap_def, flatMap_expansionIn_inBytes hkeyed]
    rfl

end InBytes
end NodeEntry

section Cast

variable {n m : Nat} (h : n = m)

def Graph.cast (g : Graph n) : Graph m := h ▸ g

theorem Graph.node_cast (g : Graph n) (v : Fin n) :
    (g.cast h).node (v.cast h) = (g.node v).map (Fin.cast h) := by
  subst h
  exact (Node.map_id _).symm

theorem Graph.nodes_cast (g : Graph n) :
    (g.cast h).nodes.toList.map (·.map Fin.val) = g.nodes.toList.map (·.map Fin.val) := by
  subst h
  rfl

theorem Renderer.outcome_cast (layout : Layout) (g : Graph n) (v : Fin n) :
    (Renderer.new layout).outcome (g.cast h) (v.cast h) = (Renderer.new layout).outcome g v := by
  subst h
  rfl

end Cast

namespace Description

def inBytes (chosen : Nat → Nat → Bool) (d : Description) : Description :=
  { d with nodes := d.nodes.mapIdx fun i e => e.inBytes (chosen i) }

variable {d : Description} {chosen : Nat → Nat → Bool}

theorem length_inBytes (d : Description) (chosen : Nat → Nat → Bool) :
    d.nodes.length = (d.inBytes chosen).nodes.length :=
  List.length_mapIdx.symm

theorem get_inBytes (t : Fin d.nodes.length) :
    (d.inBytes chosen).nodes.get (t.cast (d.length_inBytes chosen)) =
      (d.nodes.get t).inBytes (chosen t) := List.getElem_mapIdx

theorem ids_inBytes : (d.inBytes chosen).ids = d.ids := by
  refine List.ext_getElem ?_ fun i hi hi' => ?_
  · simp [ids, inBytes]
  · simp [ids, inBytes, NodeEntry.inBytes]

theorem find?_inBytes (h : d.ids.Nodup) (id : String) :
    (d.inBytes chosen).find? id = (d.find? id).map (Fin.cast (d.length_inBytes chosen)) := by
  have hid (t : Fin d.nodes.length) :
      ((d.inBytes chosen).nodes.get (t.cast (d.length_inBytes chosen))).id = (d.nodes.get t).id := by
    rw [get_inBytes]
    rfl
  refine find?_of_places (f := fun id => id) h ?_ hid (fun id => ?_) id
  · rwa [ids_inBytes]
  · rw [ids_inBytes]

/-- Where every entry can be linked, a description gives its graph for every root that it has. -/
theorem link_eq_map_linkRoot {g : Graph d.nodes.length} (hids : d.ids.Nodup)
    (hnodes : ∀ t : Fin d.nodes.length, NodeEntry.link d.find? (d.nodes.get t) = .ok (g.node t))
    (root : Option String) : d.link root = (d.linkRoot root).map fun v => (g, v) := by
  cases hv : d.find? (root.getD d.root) with
  | some v =>
    rw [linkRoot, hv]
    exact link_eq_ok_iff.mpr ⟨hids, hnodes, hv⟩
  | none =>
    have hdistinct : firstRepeated? [] d.ids = none := by
      simpa [firstRepeated?_eq_none_iff] using hids
    have hlinked : d.linked root = .error (.unknownRoot (root.getD d.root)) := by
      rw [linked, hdistinct, mapM_link_eq_ok_iff.mpr hnodes, linkRoot, hv]
      rfl
    have hfault : fault? (d.link root) = some (.unknownRoot (root.getD d.root)) := by
      rw [← fault?_map (d.link root), map_toList_link, hlinked]
      rfl
    rw [fault?_eq_some_iff.mp hfault, linkRoot, hv]
    rfl

theorem linkRoot_inBytes (h : d.ids.Nodup) (root : Option String) :
    (d.inBytes chosen).linkRoot root =
      (d.linkRoot root).map (Fin.cast (d.length_inBytes chosen)) := by
  have hroot : (d.inBytes chosen).root = d.root := rfl
  rw [linkRoot, linkRoot, hroot, find?_inBytes h]
  cases d.find? (root.getD d.root) <;> rfl

theorem link_node_inBytes {g : Graph d.nodes.length} (hids : d.ids.Nodup)
    (hnodes : ∀ t : Fin d.nodes.length, NodeEntry.link d.find? (d.nodes.get t) = .ok (g.node t))
    (t : Fin (d.inBytes chosen).nodes.length) :
    NodeEntry.link (d.inBytes chosen).find? ((d.inBytes chosen).nodes.get t) =
      .ok ((g.cast (d.length_inBytes chosen)).node t) := by
  obtain ⟨s, rfl⟩ : ∃ s : Fin d.nodes.length, s.cast (d.length_inBytes chosen) = t :=
    ⟨t.cast (d.length_inBytes chosen).symm, rfl⟩
  rw [get_inBytes, funext (find?_inBytes hids), NodeEntry.link_map,
    NodeEntry.link_inBytes (hnodes s), Graph.node_cast]
  rfl

/-- If a description can be linked, it can be linked with any of its texts in bytes. Whatever root
is asked for, the graph is the same. -/
theorem link_inBytes {root : Option String} {g : Graph d.nodes.length} {v : Fin d.nodes.length}
    (h : d.link root = .ok (g, v)) (chosen : Nat → Nat → Bool) (other : Option String) :
    (d.inBytes chosen).link other = (d.link other).map fun p =>
      (g.cast (d.length_inBytes chosen), p.2.cast (d.length_inBytes chosen)) := by
  obtain ⟨hids, hnodes, _⟩ := link_eq_ok_iff.mp h
  have hids' : (d.inBytes chosen).ids.Nodup := by rwa [ids_inBytes]
  rw [link_eq_map_linkRoot hids hnodes, link_eq_map_linkRoot hids' (link_node_inBytes hids hnodes),
    linkRoot_inBytes hids]
  cases d.linkRoot other <;> rfl

end Description

/-- A description that can be linked can be linked with any choice of its edge entries given in
bytes, and every node has the same edges. Every root that is asked for is found or missed as before,
and the same text is drawn from every node, whatever the layout. Made step by step, the nodes come
out the same as well. -/
theorem Description.drawing_of_inBytes {d : Description} {root : Option String}
    {g : Graph d.nodes.length} {v : Fin d.nodes.length} (h : d.link root = .ok (g, v))
    (chosen : Nat → Nat → Bool) :
    (∃ k : Graph (d.inBytes chosen).nodes.length,
        k.nodes.toList.map (·.map Fin.val) = g.nodes.toList.map (·.map Fin.val) ∧
          (∀ other, (d.inBytes chosen).link other =
            (d.link other).map fun p => (k, p.2.cast (d.length_inBytes chosen))) ∧
          ∀ (layout : Layout) (u : Fin d.nodes.length), ∃ text,
            (Renderer.new layout).outcome g u = .ok text ∧
              (Renderer.new layout).outcome k (u.cast (d.length_inBytes chosen)) = .ok text) ∧
      (d.inBytes chosen).construct root [] = d.construct root [] := by
  have hlink := link_inBytes h chosen
  refine ⟨⟨g.cast (d.length_inBytes chosen), Graph.nodes_cast _ g, hlink, fun layout u => ?_⟩, ?_⟩
  · obtain ⟨text, htext⟩ := exists_outcome_of_link h (.new layout) u
    refine ⟨text, htext, ?_⟩
    rw [Renderer.outcome_cast, htext]
  · have hroot : (d.inBytes chosen).link root = .ok
        (g.cast (d.length_inBytes chosen), v.cast (d.length_inBytes chosen)) := by
      rw [hlink, h]
      rfl
    rw [construct_of_link_eq_ok _ hroot, construct_of_link_eq_ok _ h, Graph.nodes_cast]
    rfl

def worded : Description :=
  ⟨"a", [⟨"a", none, [⟨"b", some "é", none, none, none, true⟩,
      ⟨"a", none, none, none, some 3, false⟩, ⟨"b", none, some "0é", none, none, false⟩,
      ⟨"a", none, some "12", none, none, false⟩], some "b", none⟩,
    ⟨"b", some "a", [⟨"a", some "GET", none, none, none, false⟩], none, none⟩]⟩

def someOfWorded (i j : Nat) : Bool := i == 0 && j != 3

example : (worded.inBytes someOfWorded).nodes.map (·.edges) =
    [[⟨"b", none, none, some [0xc3, 0xa9], none, true⟩, ⟨"a", none, none, none, some 3, false⟩,
        ⟨"b", none, none, some [0x30], none, false⟩, ⟨"b", none, none, some [0xc3], none, false⟩,
        ⟨"b", none, none, some [0xa9], none, false⟩, ⟨"a", none, some "12", none, none, false⟩],
      [⟨"a", some "GET", none, none, none, false⟩]] := by
  rfl

theorem Description.drawing_of_worded :
    ∃ g v, worded.link (some "b") = .ok (g, v) ∧
      (∃ k : Graph (worded.inBytes someOfWorded).nodes.length,
        k.nodes.toList.map (·.map Fin.val) = g.nodes.toList.map (·.map Fin.val) ∧
          (∀ other, (worded.inBytes someOfWorded).link other =
            (worded.link other).map fun p => (k, p.2.cast (worded.length_inBytes someOfWorded))) ∧
          ∀ (layout : Layout) (u : Fin worded.nodes.length), ∃ text,
            (Renderer.new layout).outcome g u = .ok text ∧
              (Renderer.new layout).outcome k (u.cast (worded.length_inBytes someOfWorded)) =
                .ok text) ∧
      (worded.inBytes someOfWorded).construct (some "b") [] = worded.construct (some "b") [] := by
  have hlinked : ∃ g v, worded.link (some "b") = .ok (g, v) := ⟨_, _, rfl⟩
  obtain ⟨g, v, h⟩ := hlinked
  exact ⟨g, v, h, Description.drawing_of_inBytes h someOfWorded⟩

end StateDiagram
