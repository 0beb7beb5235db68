import StateDiagram.Graph

/-! The nodes that can be reached from a root, each once, in the order of a depth-first
walk: after a node come its fallback target and then its edge targets, the last added edge
first, each with all that it leads to. -/
namespace StateDiagram
namespace Graph

variable {n : Nat}

def unseen (seen : List (Fin n)) : Nat := (List.finRange n).countP (· ∉ seen)

theorem countP_lt_countP {α : Type} {p q : α → Bool} {l : List α} {a : α} (ha : a ∈ l)
    (hp : p a = false) (hq : q a = true) (h : ∀ x ∈ l, p x = true → q x = true) :
    l.countP p < l.countP q := by
  induction l with
  | nil => cases ha
  | cons x xs ih =>
    have hxs : ∀ y ∈ xs, p y = true → q y = true := fun y hy => h y (List.mem_cons_of_mem x hy)
    have hle := List.countP_mono_left hxs
    rw [List.countP_cons, List.countP_cons]
    rcases List.mem_cons.mp ha with rfl | hm
    · rw [if_neg (by rw [hp]; exact Bool.false_ne_true), if_pos hq]
      omega
    · have hlt := ih hm hxs
      by_cases hx : p x = true
      · rw [if_pos hx, if_pos (h x List.mem_cons_self hx)]
        omega
      · rw [if_neg hx]
        omega

theorem unseen_cons_lt {v : Fin n} {seen : List (Fin n)} (h : v ∉ seen) :
    unseen (v :: seen) < unseen seen := by
  apply countP_lt_countP (List.mem_finRange v)
  · exact decide_eq_false fun hv => hv List.mem_cons_self
  · exact decide_eq_true h
  · intro x _ hx
    exact decide_eq_true fun hs => of_decide_eq_true hx (List.mem_cons_of_mem v hs)

/-- Visit the nodes that wait on the stack, from the top, passing over those met before. -/
def walk (g : Graph n) : (stack seen : List (Fin n)) → List (Fin n)
  | [], _ => []
  | v :: stack, seen =>
    if v ∈ seen then walk g stack seen
    else v :: walk g ((g.node v).successors ++ stack) (v :: seen)
termination_by stack seen => (unseen seen, stack.length)
decreasing_by
  · exact Prod.Lex.right _ (by simp)
  · rename_i h
    exact Prod.Lex.left _ _ (unseen_cons_lt h)

theorem walk_nil (g : Graph n) (seen : List (Fin n)) : g.walk [] seen = [] := by
  rw [walk]

theorem walk_seen (g : Graph n) {v : Fin n} {stack seen : List (Fin n)} (h : v ∈ seen) :
    g.walk (v :: stack) seen = g.walk stack seen := by
  rw [walk, if_pos h]

theorem walk_fresh (g : Graph n) {v : Fin n} {stack seen : List (Fin n)} (h : v ∉ seen) :
    g.walk (v :: stack) seen = v :: g.walk ((g.node v).successors ++ stack) (v :: seen) := by
  rw [walk, if_neg h]

/-- The nodes reachable from `root`, in the order in which a walk from it meets them. -/
def reachableFrom (g : Graph n) (root : Fin n) : List (Fin n) := g.walk [root] []

/-- Being reached from `root` along edges and fallbacks. -/
inductive Reaches (g : Graph n) (root : Fin n) : Fin n → Prop
  | root : Reaches g root root
  | step {v w : Fin n} (h : Reaches g root v) (hw : w ∈ (g.node v).successors) : Reaches g root w

theorem reachableFrom_eq_cons (g : Graph n) (root : Fin n) :
    g.reachableFrom root = root :: g.walk (g.node root).successors [root] := by
  rw [reachableFrom, walk_fresh g (by simp), List.append_nil]

end Graph
end StateDiagram
