import Mathlib
import StateDiagram.Proofs.Naming

/-! The search for a free number behind a name that is taken. It tries the numbers in turn and knows
no bound, but the name itself and every number passed over are taken, so it ends below the count of
identifiers given (`Identifiers.suffix_of_run`). Where no two nodes are called the same, it is never
begun. -/
namespace StateDiagram

theorem numbered_ne (name : String) (k : Nat) : numbered name k ≠ name := by
  intro h
  have hlength := congrArg (fun s => s.toList.length) h
  simp [numbered] at hlength

/-- The names that begin a search are distinct, so there is room for all of them. -/
theorem lt_length_of_taken {name : String} {taken : List String} {k : Nat} (hname : name ∈ taken)
    (h : ∀ j < k, numbered name j ∈ taken) : k < taken.length := by
  have hnodup : (name :: (List.range k).map (numbered name)).Nodup := by
    rw [List.nodup_cons]
    refine ⟨fun hmem => ?_, List.nodup_range.map fun i j hij => numbered_injective hij⟩
    obtain ⟨j, _, hj⟩ := List.mem_map.mp hmem
    exact numbered_ne name j hj
  have hsubset : name :: (List.range k).map (numbered name) ⊆ taken := by
    intro id hid
    rcases List.mem_cons.mp hid with rfl | hid
    · exact hname
    · obtain ⟨j, hj, rfl⟩ := List.mem_map.mp hid
      exact h j (List.mem_range.mp hj)
  have hlength := (hnodup.subperm hsubset).length_le
  rw [List.length_cons, List.length_map, List.length_range] at hlength
  exact hlength

/-- The search for a number that makes a name free. -/
structure Probe where
  name : String
  taken : List String

namespace Probe

/-- One round: a number that is taken gives way to the next one. The search is over at a free
one. -/
def next (p : Probe) (k : Nat) : Option Nat :=
  if p.taken.contains (numbered p.name k) then some (k + 1) else none

def Steps (p : Probe) : Nat → Nat → Prop := Relation.ReflTransGen fun i j => p.next i = some j

theorem next_eq_some_iff {p : Probe} {i j : Nat} :
    p.next i = some j ↔ numbered p.name i ∈ p.taken ∧ j = i + 1 := by
  by_cases h : numbered p.name i ∈ p.taken <;> simp [next, h, eq_comm]

theorem next_eq_none_iff {p : Probe} {k : Nat} : p.next k = none ↔ numbered p.name k ∉ p.taken := by
  by_cases h : numbered p.name k ∈ p.taken <;> simp [next, h]

theorem steps_iff {p : Probe} {k : Nat} : p.Steps 0 k ↔ ∀ j < k, numbered p.name j ∈ p.taken := by
  constructor
  · intro h
    induction h with
    | refl => simp
    | tail _ hnext ih =>
      obtain ⟨htaken, rfl⟩ := next_eq_some_iff.mp hnext
      intro j hj
      rcases Nat.lt_succ_iff_lt_or_eq.mp hj with hj | rfl
      · exact ih j hj
      · exact htaken
  · intro h
    induction k with
    | zero => exact .refl
    | succ k ih =>
      have hnext : p.next k = some (k + 1) :=
        next_eq_some_iff.mpr ⟨h k (Nat.lt_succ_self k), rfl⟩
      exact (ih fun j hj => h j (Nat.lt_succ_of_lt hj)).tail hnext

/-- The search, begun at zero, is over at `k`. -/
def EndsAt (p : Probe) (k : Nat) : Prop := p.Steps 0 k ∧ p.next k = none

theorem endsAt_iff {p : Probe} {k : Nat} :
    p.EndsAt k ↔ IsLeast {k | numbered p.name k ∉ p.taken} k := by
  rw [EndsAt, steps_iff, next_eq_none_iff, and_comm]
  refine and_congr_right fun _ => ⟨fun h j hj => ?_, fun h j hj => ?_⟩
  · by_contra hlt
    exact hj (h j (Nat.lt_of_not_le hlt))
  · by_contra hfree
    exact Nat.not_le_of_lt hj (h hfree)

end Probe

/-- A name, or a name with a number behind it. -/
def Bears (name id : String) : Prop := id = name ∨ ∃ k, id = numbered name k

namespace Identifiers

variable {ν : Type}

theorem next_of_not_mem {ids : Identifiers ν} {name : String} (h : name ∉ ids.taken) :
    ids.next name = name := by
  rw [next, if_neg h]

theorem next_of_mem {ids : Identifiers ν} {name : String} (h : name ∈ ids.taken) :
    ids.next name = numbered name (freeNumber name ids.taken 0) := by
  rw [next, if_pos h]

theorem bears_next (ids : Identifiers ν) (name : String) : Bears name (ids.next name) := by
  by_cases h : name ∈ ids.taken
  · exact .inr ⟨_, next_of_mem h⟩
  · exact .inl (next_of_not_mem h)

variable [DecidableEq ν]

theorem forall_entries_assign (P : ν → String → Prop) {ids : Identifiers ν}
    (h : ∀ e ∈ ids.entries, P e.1 e.2) {v : ν} {name : String}
    (hnext : ids.find? v = none → P v (ids.next name)) :
    ∀ e ∈ (ids.assign v name).entries, P e.1 e.2 := by
  cases hv : ids.find? v with
  | some id =>
    rw [assign_of_isSome (by rw [hv]; rfl)]
    exact h
  | none =>
    rw [assign, hv]
    intro e he
    rcases List.mem_append.mp he with he | he
    · exact h e he
    · rw [List.mem_singleton.mp he]
      exact hnext hv

theorem bears_of_run (name : ν → String) (calls : List (NameCall ν)) :
    ∀ e ∈ (run name calls).entries, Bears (name e.1) e.2 := by
  induction calls using List.reverseRecOn with
  | nil => simp [run, empty]
  | append_singleton calls call ih =>
    rw [run, List.foldl_append]
    cases call with
    | clear => simp [after, empty]
    | id v =>
      exact forall_entries_assign (fun v id => Bears (name v) id) ih fun _ => bears_next _ (name v)

theorem bears_idOf (name : ν → String) (calls : List (NameCall ν)) (v : ν) :
    Bears (name v) ((run name calls).idOf v (name v)) := by
  rw [idOf]
  cases hv : (run name calls).find? v with
  | none => exact bears_next _ (name v)
  | some id => exact bears_of_run name calls (v, id) ((inv_run name calls).find?_eq_some_iff.mp hv)

omit [DecidableEq ν] in
/-- A node whose name is taken gets the number at which the search ends. -/
theorem endsAt_freeNumber (name : String) (taken : List String) :
    (Probe.mk name taken).EndsAt (freeNumber name taken 0) := by
  obtain ⟨hfree, _, hbelow⟩ := freeNumber_spec name taken 0
  exact ⟨Probe.steps_iff.mpr fun j hj => hbelow j (Nat.zero_le j) hj,
    Probe.next_eq_none_iff.mpr hfree⟩

/-- As long as no two of the nodes asked for are called the same, no name is taken when its node
comes. -/
theorem bare_of_injOn (name : ν → String) (calls : List (NameCall ν))
    (h : Set.InjOn name {v | v ∈ NameCall.asked calls}) :
    ∀ e ∈ (run name calls).entries, e.2 = name e.1 := by
  induction calls using List.reverseRecOn with
  | nil => simp [run, empty]
  | append_singleton calls call ih =>
    rw [run, List.foldl_append]
    cases call with
    | clear => simp [after, empty]
    | id v =>
      have hasked : NameCall.asked (calls ++ [.id v]) = NameCall.asked calls ++ [v] := by
        rw [NameCall.asked, List.foldl_append]
        rfl
      rw [hasked] at h
      have hbare := ih (h.mono fun w hw => List.mem_append_left _ hw)
      refine forall_entries_assign (fun v id => id = name v) hbare fun hv => next_of_not_mem ?_
      intro htaken
      have hi := inv_run name calls
      obtain ⟨w, hw⟩ := (hi.mem_taken_iff (name v)).mp htaken
      have hentry := hi.find?_eq_some_iff.mp hw
      have hmem : w ∈ NameCall.asked calls :=
        (hi.mem_nodes_iff w).mp (List.mem_map.mpr ⟨_, hentry, rfl⟩)
      have hwv : w = v :=
        h (List.mem_append_left _ hmem) (List.mem_append_right _ (by simp)) (hbare _ hentry).symm
      rw [hwv, hv] at hw
      cases hw

/-- A node that has no identifier yet gets its name, if that is free. Otherwise it gets the name
with the least free number: the search comes to that number and ends there, and there are more
identifiers than it has passed over numbers. Nodes of which no two are called the same have their
names as identifiers, in whatever order they are asked for. -/
theorem suffix_of_run (name : ν → String) (calls : List (NameCall ν)) (v : ν)
    (hv : (run name calls).find? v = none) :
    let ids := run name calls
    let id := ids.idOf v (name v)
    (ids.assign v (name v)).find? v = some id ∧ answer name ids v = escape id ∧
      (name v ∉ ids.taken → id = name v) ∧
      (name v ∈ ids.taken → ∃ k, IsLeast {k | numbered (name v) k ∉ ids.taken} k ∧
        id = numbered (name v) k ∧ (Probe.mk (name v) ids.taken).EndsAt k ∧
        k < ids.size ∧ k ≤ ids.taken.length) ∧
      ∀ others, Set.InjOn name {w | w ∈ NameCall.asked others} → ∀ w ∈ NameCall.asked others,
        (run name others).find? w = some (name w) ∧
          answer name (run name others) w = escape (name w) := by
  intro ids id
  have hi : Inv (NameCall.asked calls) ids := inv_run name calls
  have hnext : ids.idOf v (name v) = ids.next (name v) := by rw [idOf, hv, Option.getD_none]
  refine ⟨find?_assign ids v (name v), rfl, fun hfree => ?_, fun htaken => ?_, ?_⟩
  · exact hnext.trans (next_of_not_mem hfree)
  · have hends := endsAt_freeNumber (name v) ids.taken
    have hlt := lt_length_of_taken htaken (Probe.steps_iff.mp hends.1)
    have hsize : ids.size = ids.taken.length := by rw [hi.taken_eq, List.length_map, size]
    exact ⟨_, Probe.endsAt_iff.mp hends, hnext.trans (next_of_mem htaken), hends, hsize ▸ hlt,
      Nat.le_of_lt hlt⟩
  · intro others hinj w hw
    have hi' := inv_run name others
    have hknown : ((run name others).find? w).isSome :=
      find?_isSome_iff.mpr ((hi'.mem_nodes_iff w).mpr hw)
    obtain ⟨given, hgiven⟩ := Option.isSome_iff_exists.mp hknown
    have hbare : given = name w :=
      bare_of_injOn name others hinj _ (hi'.find?_eq_some_iff.mp hgiven)
    rw [hbare] at hgiven
    exact ⟨hgiven, by rw [answer, idOf_of_eq_some (name w) hgiven]⟩

theorem suffix_of_imitation :
    let name : Nat → String := fun v => if v = 0 then "n_0" else "n"
    let ids := run name [.id 3, .clear, .id 0, .id 1]
    ids.find? 2 = none ∧ name 2 ∈ ids.taken ∧ ids.idOf 2 (name 2) = "n_1" ∧
      ∃ k, IsLeast {k | numbered (name 2) k ∉ ids.taken} k ∧
        ids.idOf 2 (name 2) = numbered (name 2) k ∧ (Probe.mk (name 2) ids.taken).EndsAt k ∧
        k < ids.size ∧ k ≤ ids.taken.length := by
  intro name ids
  have hv : ids.find? 2 = none := by decide
  have htaken : name 2 ∈ ids.taken := by decide
  exact ⟨hv, htaken, by cbv, (suffix_of_run name _ 2 hv).2.2.2.1 htaken⟩

end Identifiers
end StateDiagram
