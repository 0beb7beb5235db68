import Mathlib.Data.List.Nodup
import Mathlib.Logic.Relation
import StateDiagram.Enumeration

/-! The walk through a graph as a loop over a stack. Nodes are marked when they are taken, so
the stack holds nodes twice and nodes met before. The loop ends, and what it found then are
the nodes that can be reached, each once (`reachableFrom_exact`). -/
namespace StateDiagram

variable {n : Nat}

/-- An edge or the fallback of `v` has `w` as its target. -/
def Graph.Leads (g : Graph n) (v w : Fin n) : Prop :=
  (∃ e ∈ (g.node v).edges, e.target = w) ∨ ∃ b, (g.node v).fallback = some b ∧ b.target = w

theorem Graph.leads_iff {g : Graph n} {v w : Fin n} :
    g.Leads v w ↔ w ∈ (g.node v).successors := by
  rw [Node.mem_successors, Graph.Leads, or_comm]

/-- A walk that is under way. -/
structure Sweep (n : Nat) where
  /-- The nodes that wait, the next one first. -/
  stack : List (Fin n)
  /-- The nodes met so far. -/
  seen : List (Fin n)
  /-- The nodes found so far, in the order in which they were met. -/
  found : List (Fin n)

namespace Sweep

def start (root : Fin n) : Sweep n := ⟨[root], [], []⟩

/-- Take the next node off the stack. The walk is over if there is none. -/
def next (g : Graph n) : Sweep n → Option (Sweep n)
  | ⟨[], _, _⟩ => none
  | ⟨v :: stack, seen, found⟩ =>
    if seen.contains v then some ⟨stack, seen, found⟩
    else some ⟨(g.node v).successors ++ stack, v :: seen, found ++ [v]⟩

def Steps (g : Graph n) : Sweep n → Sweep n → Prop :=
  Relation.ReflTransGen fun s t => next g s = some t

theorem next_eq_none_iff {g : Graph n} {s : Sweep n} : next g s = none ↔ s.stack = [] := by
  rcases s with ⟨_ | ⟨v, stack⟩, seen, found⟩
  · simp [next]
  · by_cases h : v ∈ seen <;> simp [next, h]

theorem next_cases {g : Graph n} {s t : Sweep n} (h : next g s = some t) :
    ∃ v stack, s.stack = v :: stack ∧
      ((v ∈ s.seen ∧ t = ⟨stack, s.seen, s.found⟩) ∨
        (v ∉ s.seen ∧ t = ⟨(g.node v).successors ++ stack, v :: s.seen, s.found ++ [v]⟩)) := by
  rcases s with ⟨_ | ⟨v, stack⟩, seen, found⟩
  · simp [next] at h
  · refine ⟨v, stack, rfl, ?_⟩
    by_cases hv : v ∈ seen
    · exact .inl ⟨hv, by simpa [next, hv] using h.symm⟩
    · exact .inr ⟨hv, by simpa [next, hv] using h.symm⟩

/-- A round meets a new node, or it shortens the stack. -/
theorem next_decreases {g : Graph n} {s t : Sweep n} (h : next g s = some t) :
    Prod.Lex (· < ·) (· < ·) (Graph.unseen t.seen, t.stack.length)
      (Graph.unseen s.seen, s.stack.length) := by
  obtain ⟨v, stack, hs, ⟨_, rfl⟩ | ⟨hv, rfl⟩⟩ := next_cases h
  · exact Prod.Lex.right _ (by simp [hs])
  · exact Prod.Lex.left _ _ (Graph.unseen_cons_lt hv)

/-- The loop ends, wherever it starts. -/
theorem exists_end (g : Graph n) (s : Sweep n) : ∃ t, Steps g s t ∧ next g t = none := by
  have hwf : WellFounded fun t s : Sweep n => Prod.Lex (· < ·) (· < ·)
      (Graph.unseen t.seen, t.stack.length) (Graph.unseen s.seen, s.stack.length) :=
    InvImage.wf (fun s : Sweep n => (Graph.unseen s.seen, s.stack.length))
      (Prod.lex Nat.lt_wfRel Nat.lt_wfRel).wf
  induction s using hwf.induction with
  | _ s ih =>
    cases h : next g s with
    | none => exact ⟨s, .refl, h⟩
    | some t =>
      obtain ⟨u, htu, hu⟩ := ih t (next_decreases h)
      exact ⟨u, .head h htu, hu⟩

/-- What is found and what the rest of the walk will find stay the same together. -/
theorem found_append_walk_next {g : Graph n} {s t : Sweep n} (h : next g s = some t) :
    t.found ++ g.walk t.stack t.seen = s.found ++ g.walk s.stack s.seen := by
  obtain ⟨v, stack, hs, ⟨hv, rfl⟩ | ⟨hv, rfl⟩⟩ := next_cases h
  · rw [hs, Graph.walk_seen g hv]
  · rw [hs, Graph.walk_fresh g hv, List.append_assoc, List.singleton_append]

theorem found_append_walk_steps {g : Graph n} {s t : Sweep n} (h : Steps g s t) :
    t.found ++ g.walk t.stack t.seen = s.found ++ g.walk s.stack s.seen := by
  induction h with
  | refl => rfl
  | tail _ hnext ih => exact (found_append_walk_next hnext).trans ih

/-- What holds between the parts of a walk that began at `root`. -/
structure Inv (g : Graph n) (root : Fin n) (s : Sweep n) : Prop where
  seen_iff : ∀ v, v ∈ s.seen ↔ v ∈ s.found
  nodup : s.found.Nodup
  reached : ∀ v, v ∈ s.found ∨ v ∈ s.stack → Relation.ReflTransGen g.Leads root v
  /-- Nothing that a found node leads to is lost. -/
  closed : ∀ v ∈ s.found, ∀ w, g.Leads v w → w ∈ s.found ∨ w ∈ s.stack
  /-- Before the first round only the root waits. -/
  begun : (s.found = [] ∧ s.stack = [root]) ∨ s.found.head? = some root
  waits : ∀ w ∈ s.stack, s.found = [] ∨ ∃ v ∈ s.found, g.Leads v w
  /-- Every found node but the first was put on the stack by one found before it. -/
  led : ∀ before w after, s.found = before ++ w :: after →
    before = [] ∨ ∃ v ∈ before, g.Leads v w

theorem inv_start (g : Graph n) (root : Fin n) : Inv g root (start root) where
  seen_iff v := Iff.rfl
  nodup := List.nodup_nil
  reached v hv := by
    obtain rfl : v = root := by simpa [start] using hv
    exact .refl
  closed v hv := absurd hv List.not_mem_nil
  begun := .inl ⟨rfl, rfl⟩
  waits w _ := .inl rfl
  led before w after h := by simp [start] at h

theorem Inv.pass {g : Graph n} {root v : Fin n} {stack : List (Fin n)} {s : Sweep n}
    (hi : Inv g root s) (hs : s.stack = v :: stack) (hv : v ∈ s.seen) :
    Inv g root ⟨stack, s.seen, s.found⟩ where
  seen_iff := hi.seen_iff
  nodup := hi.nodup
  reached w hw := hi.reached w (hw.imp_right fun h => hs ▸ List.mem_cons_of_mem v h)
  closed u hu w hw := by
    rcases hi.closed u hu w hw with h | h
    · exact .inl h
    · rw [hs] at h
      rcases List.mem_cons.mp h with rfl | h
      · exact .inl ((hi.seen_iff w).mp hv)
      · exact .inr h
  begun := by
    have hfound := (hi.seen_iff v).mp hv
    rcases hi.begun with ⟨hnil, _⟩ | h
    · rw [hnil] at hfound
      exact absurd hfound List.not_mem_nil
    · exact .inr h
  waits w hw := hi.waits w (hs ▸ List.mem_cons_of_mem v hw)
  led := hi.led

/-- A node met for the first time is found, and all that it leads to waits. -/
theorem Inv.visit {g : Graph n} {root v : Fin n} {stack : List (Fin n)} {s : Sweep n}
    (hi : Inv g root s) (hs : s.stack = v :: stack) (hv : v ∉ s.seen) :
    Inv g root ⟨(g.node v).successors ++ stack, v :: s.seen, s.found ++ [v]⟩ where
  seen_iff w := by simp [hi.seen_iff w, or_comm]
  nodup := by
    have hfound : v ∉ s.found := fun h => hv ((hi.seen_iff v).mpr h)
    simpa using hi.nodup.concat hfound
  reached w hw := by
    have hroot : Relation.ReflTransGen g.Leads root v := hi.reached v (.inr (by simp [hs]))
    simp only [List.mem_append, List.mem_singleton] at hw
    rcases hw with (h | rfl) | h | h
    · exact hi.reached w (.inl h)
    · exact hroot
    · exact hroot.tail (Graph.leads_iff.mpr h)
    · exact hi.reached w (.inr (hs ▸ List.mem_cons_of_mem v h))
  closed u hu w hw := by
    simp only [List.mem_append, List.mem_singleton] at hu ⊢
    rcases hu with h | rfl
    · rcases hi.closed u h w hw with h | h
      · exact .inl (.inl h)
      · rw [hs] at h
        rcases List.mem_cons.mp h with rfl | h
        · exact .inl (.inr rfl)
        · exact .inr (.inr h)
    · exact .inr (.inl (Graph.leads_iff.mp hw))
  begun := by
    right
    rcases hi.begun with ⟨hnil, hstack⟩ | h
    · obtain rfl : v = root := (List.cons.inj (hs.symm.trans hstack)).1
      simp [hnil]
    · simp [List.head?_append, h]
  waits w hw := by
    right
    rcases List.mem_append.mp hw with h | h
    · exact ⟨v, by simp, Graph.leads_iff.mpr h⟩
    · rcases hi.waits w (hs ▸ List.mem_cons_of_mem v h) with hnil | ⟨u, hu, hl⟩
      · rcases hi.begun with ⟨_, hstack⟩ | hhead
        · rw [(List.cons.inj (hs.symm.trans hstack)).2] at h
          exact absurd h List.not_mem_nil
        · simp [hnil] at hhead
      · exact ⟨u, List.mem_append_left _ hu, hl⟩
  led before w after h := by
    rcases List.eq_nil_or_concat after with rfl | ⟨after, x, rfl⟩
    · obtain ⟨rfl, hw⟩ := List.append_inj' h rfl
      obtain rfl : v = w := by simpa using hw
      exact hi.waits v (by simp [hs])
    · rw [List.concat_eq_append, ← List.cons_append, ← List.append_assoc] at h
      exact hi.led before w after (List.append_inj' h rfl).1

theorem Inv.next {g : Graph n} {root : Fin n} {s t : Sweep n} (hi : Inv g root s)
    (h : next g s = some t) : Inv g root t := by
  obtain ⟨v, stack, hs, ⟨hv, rfl⟩ | ⟨hv, rfl⟩⟩ := next_cases h
  · exact hi.pass hs hv
  · exact hi.visit hs hv

theorem Inv.steps {g : Graph n} {root : Fin n} {s t : Sweep n} (hi : Inv g root s)
    (h : Steps g s t) : Inv g root t := by
  induction h with
  | refl => exact hi
  | tail _ hnext ih => exact ih.next hnext

/-- When the loop is over, the nodes found are closed under edges and fallbacks. -/
theorem Inv.mem_found_iff {g : Graph n} {root : Fin n} {s : Sweep n} (hi : Inv g root s)
    (hs : s.stack = []) (v : Fin n) :
    v ∈ s.found ↔ Relation.ReflTransGen g.Leads root v := by
  refine ⟨fun h => hi.reached v (.inl h), fun h => ?_⟩
  induction h with
  | refl =>
    rcases hi.begun with ⟨_, hstack⟩ | hhead
    · simp [hs] at hstack
    · exact List.mem_of_head? hhead
  | tail _ hl ih => simpa [hs] using hi.closed _ ih _ hl

theorem exists_end_start (g : Graph n) (root : Fin n) :
    ∃ s, Steps g (start root) s ∧ next g s = none ∧ s.found = g.reachableFrom root := by
  obtain ⟨s, hsteps, hend⟩ := exists_end g (start root)
  have hfound := found_append_walk_steps hsteps
  rw [next_eq_none_iff.mp hend, Graph.walk_nil, List.append_nil] at hfound
  exact ⟨s, hsteps, hend, hfound⟩

end Sweep

namespace Graph

theorem reaches_iff {g : Graph n} {root v : Fin n} :
    g.Reaches root v ↔ Relation.ReflTransGen g.Leads root v := by
  constructor
  · intro h
    induction h with
    | root => exact .refl
    | step _ hw ih => exact ih.tail (leads_iff.mpr hw)
  · intro h
    induction h with
    | refl => exact .root
    | tail _ hl ih => exact .step ih (leads_iff.mp hl)

theorem mem_reachableFrom_iff (g : Graph n) (root v : Fin n) :
    v ∈ g.reachableFrom root ↔ g.Reaches root v := by
  obtain ⟨s, hsteps, hend, hfound⟩ := Sweep.exists_end_start g root
  rw [← hfound, reaches_iff]
  exact ((Sweep.inv_start g root).steps hsteps).mem_found_iff (Sweep.next_eq_none_iff.mp hend) v

theorem nodup_reachableFrom (g : Graph n) (root : Fin n) : (g.reachableFrom root).Nodup := by
  obtain ⟨s, hsteps, _, hfound⟩ := Sweep.exists_end_start g root
  exact hfound ▸ ((Sweep.inv_start g root).steps hsteps).nodup

theorem led_reachableFrom (g : Graph n) (root : Fin n) (before : List (Fin n)) (w : Fin n)
    (after : List (Fin n)) (h : g.reachableFrom root = before ++ w :: after) :
    before = [] ∨ ∃ v ∈ before, g.Leads v w := by
  obtain ⟨s, hsteps, _, hfound⟩ := Sweep.exists_end_start g root
  exact ((Sweep.inv_start g root).steps hsteps).led before w after (hfound.trans h)

/-- The loop from `root` ends with the nodes of the walk: exactly those that can be reached,
each once, the root first, and each later one a target of a node before it. -/
theorem reachableFrom_exact (g : Graph n) (root : Fin n) :
    (∃ s, Sweep.Steps g (.start root) s ∧ Sweep.next g s = none ∧
        s.found = g.reachableFrom root) ∧
      (∀ v, v ∈ g.reachableFrom root ↔ Relation.ReflTransGen g.Leads root v) ∧
      (g.reachableFrom root).Nodup ∧
      (g.reachableFrom root).head? = some root ∧
      ∀ before w after, g.reachableFrom root = before ++ w :: after →
        before = [] ∨ ∃ v ∈ before, g.Leads v w := by
  refine ⟨Sweep.exists_end_start g root, fun v => ?_, nodup_reachableFrom g root, ?_,
    led_reachableFrom g root⟩
  · rw [mem_reachableFrom_iff, reaches_iff]
  · rw [reachableFrom_eq_cons, List.head?_cons]

end Graph
end StateDiagram
