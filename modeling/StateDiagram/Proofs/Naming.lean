import Mathlib.Data.Finset.Card
import StateDiagram.Drawing
import StateDiagram.Proofs.Attempts
import StateDiagram.Proofs.Walk

/-! Identifiers over whole runs. Between two clearings a node keeps the identifier it was given,
no other node gets it, and the names taken are those of the nodes asked for, whatever the nodes
are called. So the blocks of a drawing have different identifiers. -/
namespace StateDiagram

/-- What can be asked of a table of identifiers. -/
inductive NameCall (ν : Type)
  | id (v : ν)
  | clear
  deriving DecidableEq, Repr

namespace NameCall

variable {ν : Type}

def note (vs : List ν) : NameCall ν → List ν
  | id v => vs ++ [v]
  | clear => []

/-- The nodes asked for since the table was cleared last. -/
def asked (calls : List (NameCall ν)) : List ν := calls.foldl note []

end NameCall

namespace Identifiers

variable {ν : Type} [DecidableEq ν]

def after (name : ν → String) (ids : Identifiers ν) : NameCall ν → Identifiers ν
  | .id v => ids.assign v (name v)
  | .clear => .empty

def run (name : ν → String) (calls : List (NameCall ν)) : Identifiers ν :=
  calls.foldl (after name) .empty

/-- The text given for a node, as it stands between double quotes. -/
def answer (name : ν → String) (ids : Identifiers ν) (v : ν) : String :=
  escape (ids.idOf v (name v))

/-- What holds of a table since it was cleared, when `vs` were asked for. -/
structure Inv (vs : List ν) (ids : Identifiers ν) : Prop where
  taken_eq : ids.taken = ids.entries.map (·.2)
  nodup_taken : ids.taken.Nodup
  nodup_nodes : (ids.entries.map (·.1)).Nodup
  mem_nodes_iff : ∀ v, v ∈ ids.entries.map (·.1) ↔ v ∈ vs

theorem find?_isSome_iff {ids : Identifiers ν} {v : ν} :
    (ids.find? v).isSome ↔ v ∈ ids.entries.map (·.1) := by
  simp only [find?, List.lookup_isSome_iff, List.mem_map, beq_iff_eq]
  exact exists_congr fun e => and_congr_right fun _ => eq_comm

theorem find?_assign_of_eq_some {ids : Identifiers ν} {v w : ν} {id : String} (name : String)
    (h : ids.find? v = some id) : (ids.assign w name).find? v = some id := by
  unfold assign
  split
  · exact h
  · unfold find? at h ⊢
    rw [List.lookup_append, h]
    rfl

theorem idOf_of_eq_some {ids : Identifiers ν} {v : ν} {id : String} (name : String)
    (h : ids.find? v = some id) : ids.idOf v name = id := by
  rw [idOf, h, Option.getD_some]

theorem assign_of_isSome {ids : Identifiers ν} {v : ν} (h : (ids.find? v).isSome) (name : String) :
    ids.assign v name = ids := by
  rw [assign, if_pos h]

omit [DecidableEq ν] in
theorem inv_empty : Inv [] (empty : Identifiers ν) :=
  ⟨rfl, List.nodup_nil, List.nodup_nil, fun _ => Iff.rfl⟩

theorem Inv.assign {vs : List ν} {ids : Identifiers ν} (hi : Inv vs ids) (v : ν) (name : String) :
    Inv (vs ++ [v]) (ids.assign v name) := by
  by_cases h : (ids.find? v).isSome
  · have hv : v ∈ vs := (hi.mem_nodes_iff v).mp (find?_isSome_iff.mp h)
    rw [assign_of_isSome h]
    refine ⟨hi.taken_eq, hi.nodup_taken, hi.nodup_nodes, fun w => ?_⟩
    rw [hi.mem_nodes_iff w, List.mem_append, List.mem_singleton]
    exact ⟨.inl, fun hw => hw.elim (fun h => h) (fun e => e ▸ hv)⟩
  · have hv : v ∉ ids.entries.map (·.1) := fun hm => h (find?_isSome_iff.mpr hm)
    rw [Identifiers.assign, if_neg h]
    refine ⟨by simp [hi.taken_eq], ?_, ?_, fun w => ?_⟩
    · simpa using hi.nodup_taken.concat (next_not_mem ids name)
    · simpa using hi.nodup_nodes.concat hv
    · rw [List.map_append, List.mem_append, hi.mem_nodes_iff w]
      simp

theorem Inv.foldl_assign {vs : List ν} {ids : Identifiers ν} (hi : Inv vs ids) (name : ν → String)
    (ws : List ν) : Inv (vs ++ ws) (ws.foldl (fun ids w => ids.assign w (name w)) ids) := by
  induction ws generalizing vs ids with
  | nil => simpa using hi
  | cons w ws ih => simpa using ih (hi.assign w (name w))

/-- One call keeps the invariant; clearing begins anew. -/
theorem Inv.after {vs : List ν} {ids : Identifiers ν} (hi : Inv vs ids) (name : ν → String)
    (call : NameCall ν) : Inv (call.note vs) (ids.after name call) := by
  cases call with
  | id v => exact hi.assign v (name v)
  | clear => exact inv_empty

theorem inv_run (name : ν → String) (calls : List (NameCall ν)) :
    Inv (NameCall.asked calls) (run name calls) := by
  induction calls using List.reverseRecOn with
  | nil => exact inv_empty
  | append_singleton calls call ih =>
    rw [NameCall.asked, run, List.foldl_append, List.foldl_append]
    exact ih.after name call

theorem Inv.find?_eq_some_iff {vs : List ν} {ids : Identifiers ν} (hi : Inv vs ids) {v : ν}
    {id : String} : ids.find? v = some id ↔ (v, id) ∈ ids.entries := by
  constructor
  · intro h
    obtain ⟨before, after, he, _⟩ := List.lookup_eq_some_iff.mp h
    simp [he]
  · intro h
    have hs : (ids.find? v).isSome := find?_isSome_iff.mpr (List.mem_map.mpr ⟨_, h, rfl⟩)
    obtain ⟨id', hid⟩ := Option.isSome_iff_exists.mp hs
    obtain ⟨before, after, he, _⟩ := List.lookup_eq_some_iff.mp hid
    have hmem : (v, id') ∈ ids.entries := by simp [he]
    have heq := List.inj_on_of_nodup_map hi.nodup_nodes h hmem rfl
    rw [hid, (Prod.mk.inj heq).2]

/-- No two nodes have the same identifier. -/
theorem Inv.eq_of_find? {vs : List ν} {ids : Identifiers ν} (hi : Inv vs ids) {v w : ν}
    {id : String} (hv : ids.find? v = some id) (hw : ids.find? w = some id) : v = w := by
  have hnodup : (ids.entries.map (·.2)).Nodup := hi.taken_eq ▸ hi.nodup_taken
  have heq := List.inj_on_of_nodup_map hnodup (hi.find?_eq_some_iff.mp hv)
    (hi.find?_eq_some_iff.mp hw) rfl
  exact (Prod.mk.inj heq).1

theorem Inv.size_eq {vs : List ν} {ids : Identifiers ν} (hi : Inv vs ids) :
    ids.size = vs.toFinset.card := by
  have hset : (ids.entries.map (·.1)).toFinset = vs.toFinset := by
    ext v
    rw [List.mem_toFinset, List.mem_toFinset, hi.mem_nodes_iff v]
  rw [← hset, List.toFinset_card_of_nodup hi.nodup_nodes, List.length_map, size]

theorem Inv.mem_taken_iff {vs : List ν} {ids : Identifiers ν} (hi : Inv vs ids) (id : String) :
    id ∈ ids.taken ↔ ∃ v, ids.find? v = some id := by
  rw [hi.taken_eq, List.mem_map]
  constructor
  · rintro ⟨⟨v, _⟩, he, rfl⟩
    exact ⟨v, hi.find?_eq_some_iff.mpr he⟩
  · rintro ⟨v, hv⟩
    exact ⟨(v, id), hi.find?_eq_some_iff.mp hv, rfl⟩

theorem find?_foldl_assign (name : ν → String) {ids : Identifiers ν} {v : ν} {id : String}
    (h : ids.find? v = some id) (vs : List ν) :
    (vs.foldl (fun ids w => ids.assign w (name w)) ids).find? v = some id := by
  induction vs generalizing ids with
  | nil => exact h
  | cons w vs ih => exact ih (find?_assign_of_eq_some (name w) h)

theorem run_append_asks (name : ν → String) (calls : List (NameCall ν)) (vs : List ν) :
    run name (calls ++ vs.map .id) =
      vs.foldl (fun ids w => ids.assign w (name w)) (run name calls) := by
  rw [run, List.foldl_append, List.foldl_map]
  rfl

/-- Two answers between two clearings are the same text exactly if the nodes are the same. -/
theorem answer_eq_iff (name : ν → String) (calls : List (NameCall ν)) (v : ν) (more : List ν)
    (w : ν) :
    answer name (run name calls) v = answer name (run name (calls ++ .id v :: more.map .id)) w ↔
      v = w := by
  have hsplit : calls ++ .id v :: more.map .id = calls ++ (v :: more).map .id := rfl
  rw [hsplit]
  have hi := inv_run name (calls ++ (v :: more).map .id)
  have hv : (run name (calls ++ (v :: more).map .id)).find? v =
      some ((run name calls).idOf v (name v)) := by
    rw [run_append_asks]
    exact find?_foldl_assign name (find?_assign _ v (name v)) more
  generalize run name (calls ++ (v :: more).map .id) = later at hi hv
  rw [answer, answer]
  constructor
  · intro h
    have hw := find?_assign later w (name w)
    rw [← escape_injective h] at hw
    exact (hi.assign w (name w)).eq_of_find? (find?_assign_of_eq_some (name w) hv) hw
  · rintro rfl
    rw [idOf_of_eq_some (name v) hv]

end Identifiers

namespace Graph

variable {n : Nat}

theorem inv_identifiers (g : Graph n) (root : Fin n) :
    Identifiers.Inv (g.reachableFrom root) (g.identifiers root) :=
  Identifiers.inv_empty.foldl_assign g.name (g.reachableFrom root)

theorem isSome_find?_identifiers (g : Graph n) {root v : Fin n} :
    ((g.identifiers root).find? v).isSome ↔ g.Reaches root v := by
  rw [Identifiers.find?_isSome_iff, (inv_identifiers g root).mem_nodes_iff, mem_reachableFrom_iff]

/-- Every node that can be reached has its identifier before the first block is made. -/
theorem find?_identifiers (g : Graph n) {root v : Fin n} (hv : v ∈ g.reachableFrom root) :
    (g.identifiers root).find? v = some ((g.identifiers root).idOf v (g.name v)) := by
  have hsome : ((g.identifiers root).find? v).isSome :=
    g.isSome_find?_identifiers.mpr ((mem_reachableFrom_iff g root v).mp hv)
  obtain ⟨id, hid⟩ := Option.isSome_iff_exists.mp hsome
  rw [hid, Identifiers.idOf_of_eq_some (g.name v) hid]

theorem idOf_identifiers_inj (g : Graph n) {root v w : Fin n} (hv : v ∈ g.reachableFrom root)
    (hw : w ∈ g.reachableFrom root)
    (h : (g.identifiers root).idOf v (g.name v) = (g.identifiers root).idOf w (g.name w)) :
    v = w :=
  (inv_identifiers g root).eq_of_find? (find?_identifiers g hv) (h ▸ find?_identifiers g hw)

theorem idOf_identifiers_root (g : Graph n) (root : Fin n) :
    (g.identifiers root).idOf root (g.name root) = g.name root := by
  apply Identifiers.idOf_of_eq_some
  rw [identifiers, reachableFrom_eq_cons, List.foldl_cons]
  exact Identifiers.find?_foldl_assign g.name (Identifiers.find?_assign .empty root _) _

theorem block_id {g : Graph n} {id : Fin n → String} (v : Fin n) (b : Block)
    (h : g.block id v = .ok b) : b.id = id v := by
  obtain ⟨advancing, _, h⟩ := bind_eq_ok_iff.mp h
  obtain ⟨staying, _, h⟩ := bind_eq_ok_iff.mp h
  cases h
  rfl

theorem map_id_blocks {g : Graph n} {root : Fin n} {bs : List Block} (h : g.blocks root = .ok bs) :
    bs.map (·.id) =
      (g.reachableFrom root).map fun v => (g.identifiers root).idOf v (g.name v) :=
  map_eq_map_of_mapM h block_id

end Graph

/-- Since the table was cleared last, equal nodes have equal identifiers and different nodes have
different ones, also as they are written; there are as many as nodes asked for, and no name but
theirs is taken. So the blocks of a drawing have different identifiers, and the root its name. -/
theorem Identifiers.unique_of_run {ν : Type} [DecidableEq ν] (name : ν → String)
    (calls : List (NameCall ν)) :
    (∀ (v : ν) (more : List ν) (w : ν), answer name (run name calls) v =
        answer name (run name (calls ++ .id v :: more.map .id)) w ↔ v = w) ∧
      (run name calls).size = (NameCall.asked calls).toFinset.card ∧
      (∀ v, ((run name calls).find? v).isSome ↔ v ∈ NameCall.asked calls) ∧
      (∀ id, id ∈ (run name calls).taken ↔ ∃ v, (run name calls).find? v = some id) ∧
      (run name calls).taken.Nodup ∧
      (run name calls).taken.length = (run name calls).size ∧
      ∀ {n : Nat} (r : Renderer n) (g : Graph n) (root : Fin n) (bs : List Block),
        (r.blocks g root).1 = .ok bs →
          (bs.map fun b => escape b.id).Nodup ∧
            (bs.map fun b => escape b.id).head? = some (escape (g.name root)) := by
  have hi := inv_run name calls
  refine ⟨answer_eq_iff name calls, hi.size_eq, fun v => ?_, hi.mem_taken_iff, hi.nodup_taken, ?_,
    fun {n} r g root bs hbs => ?_⟩
  · rw [find?_isSome_iff, hi.mem_nodes_iff]
  · rw [hi.taken_eq, List.length_map, size]
  · have hids : (bs.map fun b => escape b.id) = (g.reachableFrom root).map fun v =>
        escape ((g.identifiers root).idOf v (g.name v)) := by
      have h := congrArg (List.map escape) (Graph.map_id_blocks hbs)
      simpa only [List.map_map, Function.comp_def] using h
    rw [hids]
    constructor
    · exact (Graph.nodup_reachableFrom g root).map_on fun v hv w hw h =>
        Graph.idOf_identifiers_inj g hv hw (escape_injective h)
    · rw [Graph.reachableFrom_eq_cons, List.map_cons, List.head?_cons,
        Graph.idOf_identifiers_root]

end StateDiagram
