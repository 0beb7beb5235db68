import Mathlib.Data.List.Induction
import Mathlib.Data.List.Nodup
import StateDiagram.EdgeGroup

/-! Groups of edges without an index: one for each target, in the order in which targets are
first seen, with all the edges that lead to it, in their order (`ofEdges_eq_map`). -/
namespace StateDiagram

section Targets

variable {ν : Type} [DecidableEq ν]

theorem eraseDups_concat (ts : List ν) (t : ν) :
    (ts ++ [t]).eraseDups = if t ∈ ts then ts.eraseDups else ts.eraseDups ++ [t] := by
  rw [List.eraseDups_append]
  by_cases h : t ∈ ts <;> simp [List.removeAll, List.elem_eq_contains, h, List.eraseDups_cons]

theorem nodup_eraseDups (ts : List ν) : ts.eraseDups.Nodup := by
  induction ts using List.reverseRecOn with
  | nil => exact List.nodup_nil
  | append_singleton ts t ih =>
    rw [eraseDups_concat]
    split
    · exact ih
    · rename_i h
      simpa using ih.concat (fun hm => h (List.mem_eraseDups.mp hm))

end Targets

namespace EdgeGroup

variable {ν : Type} [DecidableEq ν]

theorem push_map {ts : List ν} (hts : ts.Nodup) (edges : ν → List (Edge ν)) (e : Edge ν)
    (hnew : e.target ∉ ts → edges e.target = []) :
    push (ts.map fun t => ⟨t, edges t⟩) e =
      (if e.target ∈ ts then ts else ts ++ [e.target]).map fun t =>
        ⟨t, edges t ++ if e.target = t then [e] else []⟩ := by
  induction ts with
  | nil => simp [push, hnew]
  | cons t ts ih =>
    obtain ⟨ht, hts⟩ := List.nodup_cons.mp hts
    by_cases he : t = e.target
    · subst he
      have hrest : ∀ u ∈ ts, (⟨u, edges u⟩ : EdgeGroup ν) =
          ⟨u, edges u ++ if e.target = u then [e] else []⟩ := by
        intro u hu
        have hne : e.target ≠ u := fun h => ht (h ▸ hu)
        simp [hne]
      simp only [push, List.map_cons, List.mem_cons, true_or, if_true,
        List.map_congr_left hrest]
    · have hne : e.target ≠ t := fun h => he h.symm
      have hpush := ih hts fun h => hnew (by simp [hne, h])
      by_cases hm : e.target ∈ ts
      · simp only [push, List.map_cons, he, if_false, hpush, hm, if_true, List.mem_cons, or_true,
          hne, List.append_nil]
      · simp only [push, List.map_cons, he, if_false, hpush, hm, List.mem_cons, or_self, hne,
          List.append_nil, List.cons_append]

theorem ofEdges_eq_map (edges : List (Edge ν)) :
    ofEdges edges = (edges.map (·.target)).eraseDups.map fun t =>
      ⟨t, edges.filter (·.target == t)⟩ := by
  induction edges using List.reverseRecOn with
  | nil => rfl
  | append_singleton edges e ih =>
    have hnew : e.target ∉ (edges.map (·.target)).eraseDups →
        edges.filter (·.target == e.target) = [] := by
      intro h
      rw [List.filter_eq_nil_iff]
      intro e' he' heq
      exact h (List.mem_eraseDups.mpr (List.mem_map.mpr ⟨e', he', by simpa using heq⟩))
    have hpush := push_map (nodup_eraseDups _) (fun t => edges.filter (·.target == t)) e hnew
    rw [ofEdges, List.foldl_concat, ← ofEdges, ih, hpush]
    simp only [List.mem_eraseDups, List.map_append, List.map_cons, List.map_nil, eraseDups_concat,
      List.filter_append]
    refine List.map_congr_left fun t _ => ?_
    by_cases h : e.target = t <;> simp [h]

end EdgeGroup

namespace Node

variable {ν : Type} [DecidableEq ν]

/-- The targets of the edges with a flag, in the order in which they are first seen. -/
def targets (v : Node ν) (stays : Bool) : List ν :=
  ((v.edges.filter (·.stays == stays)).map (·.target)).eraseDups

def edgesTo (v : Node ν) (stays : Bool) (t : ν) : List (Edge ν) :=
  v.edges.filter fun e => e.stays == stays && e.target == t

theorem groups_eq_map (v : Node ν) (stays : Bool) :
    v.groups stays = (v.targets stays).map fun t => ⟨t, v.edgesTo stays t⟩ := by
  rw [groups, EdgeGroup.ofEdges_eq_map, targets]
  refine List.map_congr_left fun t _ => ?_
  rw [List.filter_filter, edgesTo]
  simp only [Bool.and_comm]

theorem mem_successors_of_mem_targets {v : Node ν} {stays : Bool} {t : ν}
    (h : t ∈ v.targets stays) : t ∈ v.successors := by
  rw [targets, List.mem_eraseDups, List.mem_map] at h
  obtain ⟨e, he, rfl⟩ := h
  exact mem_successors.mpr (.inr ⟨e, (List.mem_filter.mp he).1, rfl⟩)

theorem target_mem_of_mem_groups {v : Node ν} {stays : Bool} {group : EdgeGroup ν}
    (h : group ∈ v.groups stays) : group.target ∈ v.successors := by
  rw [groups_eq_map] at h
  obtain ⟨t, ht, rfl⟩ := List.mem_map.mp h
  exact mem_successors_of_mem_targets ht

end Node
end StateDiagram
