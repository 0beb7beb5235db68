import StateDiagram.Proofs.Walk

/-! The walk as a recursive search. A search marks a node when it meets it for the first time, and
goes on to what the node leads to before it comes back. The loop over a stack, which marks nodes
only when they are taken and holds many that were met before, finds the same nodes in the same
order (`Graph.reachableFrom_eq_search`). -/
namespace StateDiagram

variable {n : Nat}

namespace Graph

theorem unseen_append_le (found seen : List (Fin n)) : unseen (found ++ seen) ≤ unseen seen := by
  apply List.countP_mono_left
  intro v _ hv
  exact decide_eq_true fun hs => of_decide_eq_true hv (List.mem_append_right found hs)

mutual

/-- The nodes that a search from `v` meets for the first time, if the nodes of `marked` were met
before it, the latest first. A new node is followed by what is met from its fallback, and then by
what is met from its edges, the last added edge first. -/
def search (g : Graph n) (marked : List (Fin n)) (v : Fin n) : List (Fin n) :=
  if v ∈ marked then []
  else
    let below := match (g.node v).fallback with
      | none => []
      | some b => search g (v :: marked) b.target
    v :: below ++
      searchEach g (below.reverse ++ v :: marked) ((g.node v).edges.reverse.map (·.target))
termination_by (unseen marked, 0)
decreasing_by
  · rename_i h
    exact Prod.Lex.left _ _ (unseen_cons_lt h)
  · rename_i h
    exact Prod.Lex.left _ _ (Nat.lt_of_le_of_lt (unseen_append_le _ _) (unseen_cons_lt h))

def searchEach (g : Graph n) (marked : List (Fin n)) : List (Fin n) → List (Fin n)
  | [] => []
  | v :: vs =>
    let found := search g marked v
    found ++ searchEach g (found.reverse ++ marked) vs
termination_by vs => (unseen marked, vs.length + 1)
decreasing_by
  · exact Prod.Lex.right _ (by simp)
  · exact Prod.Lex.right' _ (unseen_append_le _ _) (by simp)

end

end Graph

namespace Sweep

/-- The loop finds `more` while it takes `todo` off its stack, whatever waits below and whatever
was found before. -/
def Clears (g : Graph n) (todo seen more : List (Fin n)) : Prop :=
  ∀ stack found, Steps g ⟨todo ++ stack, seen, found⟩ ⟨stack, more.reverse ++ seen, found ++ more⟩

theorem clears_nil (g : Graph n) (seen : List (Fin n)) : Clears g [] seen [] := by
  intro stack found
  rw [List.append_nil]
  exact Relation.ReflTransGen.refl

theorem Clears.append {g : Graph n} {us vs seen more more' : List (Fin n)}
    (hu : Clears g us seen more) (hv : Clears g vs (more.reverse ++ seen) more') :
    Clears g (us ++ vs) seen (more ++ more') := by
  intro stack found
  have h := Relation.ReflTransGen.trans (hu (vs ++ stack) found) (hv stack (found ++ more))
  simp only [List.append_assoc, List.reverse_append] at h ⊢
  exact h

theorem clears_pass {g : Graph n} {v : Fin n} {seen : List (Fin n)} (h : v ∈ seen) :
    Clears g [v] seen [] := by
  intro stack found
  rw [List.append_nil]
  exact .single (by simp [next, h])

theorem clears_visit {g : Graph n} {v : Fin n} {seen more : List (Fin n)} (h : v ∉ seen)
    (hmore : Clears g (g.node v).successors (v :: seen) more) :
    Clears g [v] seen (v :: more) := by
  intro stack found
  have hnext : next g ⟨v :: stack, seen, found⟩ =
      some ⟨(g.node v).successors ++ stack, v :: seen, found ++ [v]⟩ := by simp [next, h]
  have hrest := hmore stack (found ++ [v])
  rw [List.append_assoc] at hrest
  rw [List.reverse_cons, List.append_assoc]
  exact .head hnext hrest

/-- Stale nodes on the stack are passed over at once, and a new one is replaced by what it leads
to: so the loop clears its stack as the searches from the nodes on it would. -/
theorem clears_search (g : Graph n) :
    (∀ seen v, Clears g [v] seen (g.search seen v)) ∧
      ∀ seen vs, Clears g vs seen (g.searchEach seen vs) := by
  apply Graph.search.mutual_induct g
  case case1 =>
    intro seen v hv
    rw [Graph.search, if_pos hv]
    exact clears_pass hv
  case case2 =>
    intro seen v hv below hfallback hedges
    have hbelow : Clears g ((g.node v).fallback.map (·.target)).toList (v :: seen) below := by
      cases hb : (g.node v).fallback with
      | none => simpa [below, hb] using clears_nil g (v :: seen)
      | some b => simpa [below, hb] using hfallback b
    rw [Graph.search, if_neg hv, List.cons_append]
    apply clears_visit hv
    rw [Node.successors, ← List.map_reverse]
    exact hbelow.append hedges
  case case3 =>
    intro seen
    rw [Graph.searchEach]
    exact clears_nil g seen
  case case4 =>
    intro seen v vs found hv hvs
    rw [Graph.searchEach]
    exact hv.append hvs

end Sweep

/-- The loop from `root` finds what the recursive search from `root` finds, in the same order. -/
theorem Graph.reachableFrom_eq_search (g : Graph n) (root : Fin n) :
    g.reachableFrom root = g.search [] root ∧
      ∃ s, Sweep.Steps g (.start root) s ∧ Sweep.next g s = none ∧ s.found = g.search [] root := by
  have hsteps := (Sweep.clears_search g).1 [] root [] []
  have hfound := Sweep.found_append_walk_steps hsteps
  rw [walk_nil, List.append_nil, List.nil_append] at hfound
  exact ⟨hfound.symm, _, hsteps, rfl, rfl⟩

end StateDiagram
