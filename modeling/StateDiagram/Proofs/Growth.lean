import StateDiagram.Graph.Building
import StateDiagram.Proofs.InputFaults

/-! Graphs that grow by checked calls. A call is written here as a program that changes a node in
place, edge by edge, and what it changed would stay if it failed later; it comes to what extending
the graph at once comes to (`Editing.call_eq`). No call takes back what an earlier one did, and
every edge has a key as it should be, so what was built can be drawn from any node, whatever was
refused on the way (`Calls.wellFormed_run`). -/
namespace StateDiagram

section Steps

variable {ν : Type}

def BuildStep.edges : BuildStep ν → List (Edge ν)
  | matchByte b t => [⟨t, some (.bytes [b]), false⟩]
  | matchAny bs t => bs.map fun b => ⟨t, some (.bytes [b]), false⟩
  | matchBytes bs t => [⟨t, some (.bytes bs), false⟩]
  | peek b t => [⟨t, some (.bytes [b]), true⟩]
  | invokeCode c t => [⟨t, some (.code c), true⟩]
  | otherwise _ => []
  | skipTo _ => []

def BuildStep.fallback? : BuildStep ν → Option (Fallback ν)
  | otherwise t => some ⟨t, true⟩
  | skipTo t => some ⟨t, false⟩
  | _ => none

/-- What a node holds against a step: it matches on no bytes, or the slot it would fill is taken. -/
inductive Node.Refuses (v : Node ν) : BuildStep ν → BuildFault → Prop
  | noBytes (t : ν) : Refuses v (.matchBytes [] t) (.emptyKey v.name)
  | taken {step : BuildStep ν} (b b' : Fallback ν) (hv : v.fallback = some b)
    (hstep : step.fallback? = some b') : Refuses v step (.fallbackTaken v.name)

/-- An edge as it should be: it has a code and leaves the input where it is, or it has bytes. -/
def Edge.WellFormed (e : Edge ν) : Prop :=
  (∃ c, e.key = some (.code c) ∧ e.stays = true) ∨ ∃ bs, bs ≠ [] ∧ e.key = some (.bytes bs)

/-- `w` is `v` with some edges added at the end, and with a fallback if `v` has none. -/
structure Node.Grows (v w : Node ν) : Prop where
  name_eq : w.name = v.name
  edges_prefix : v.edges <+: w.edges
  fallback_eq : ∀ b, v.fallback = some b → w.fallback = some b

namespace Node

theorem Grows.refl (v : Node ν) : v.Grows v := ⟨rfl, List.prefix_refl v.edges, fun _ h => h⟩

theorem Grows.trans {u v w : Node ν} (huv : u.Grows v) (hvw : v.Grows w) : u.Grows w where
  name_eq := hvw.name_eq.trans huv.name_eq
  edges_prefix := huv.edges_prefix.trans hvw.edges_prefix
  fallback_eq b h := hvw.fallback_eq b (huv.fallback_eq b h)

theorem Grows.map {μ : Type} {v w : Node ν} (h : v.Grows w) (f : ν → μ) :
    (v.map f).Grows (w.map f) where
  name_eq := h.name_eq
  edges_prefix := h.edges_prefix.map _
  fallback_eq b hb := by
    obtain ⟨b', hv, rfl⟩ := Option.map_eq_some_iff.mp hb
    exact Option.map_eq_some_iff.mpr ⟨b', h.fallback_eq b' hv, rfl⟩

def grown (v : Node ν) (step : BuildStep ν) : Node ν :=
  ⟨v.name, v.edges ++ step.edges, v.fallback.or step.fallback?⟩

theorem grows_grown (v : Node ν) (step : BuildStep ν) : v.Grows (v.grown step) where
  name_eq := rfl
  edges_prefix := List.prefix_append v.edges step.edges
  fallback_eq b h := by rw [grown, h, Option.some_or]

theorem setFallback_cases (v : Node ν) (b : Fallback ν) :
    ((∃ b', v.fallback = some b') ∧ v.setFallback b = .error (.fallbackTaken v.name)) ∨
      (v.fallback = none ∧ v.setFallback b = .ok { v with fallback := some b }) := by
  cases hv : v.fallback with
  | some b' => exact .inl ⟨⟨b', rfl⟩, by simp [setFallback, hv]⟩
  | none => exact .inr ⟨rfl, by simp [setFallback, hv]⟩

theorem extend_cases (v : Node ν) (step : BuildStep ν) :
    (∃ f, v.Refuses step f ∧ v.extend step = .error f) ∨
      ((∀ f, ¬v.Refuses step f) ∧ v.extend step = .ok (v.grown step)) := by
  have hedges (hstep : step.fallback? = none) (hne : ∀ t, step ≠ .matchBytes [] t) :
      (∀ f, ¬v.Refuses step f) ∧ v.grown step = v.connect step.edges := by
    refine ⟨?_, by simp [grown, connect, hstep]⟩
    rintro f (⟨t⟩ | ⟨b, b', _, h⟩)
    · exact hne t rfl
    · rw [hstep] at h
      cases h
  have hslot (b : Fallback ν) (hstep : step.fallback? = some b) (hnone : step.edges = [])
      (hextend : v.extend step = v.setFallback b) :
      (∃ f, v.Refuses step f ∧ v.extend step = .error f) ∨
        ((∀ f, ¬v.Refuses step f) ∧ v.extend step = .ok (v.grown step)) := by
    rw [hextend]
    rcases v.setFallback_cases b with ⟨⟨b', hb'⟩, h⟩ | ⟨hfree, h⟩
    · exact .inl ⟨_, .taken b' b hb' hstep, h⟩
    · refine .inr ⟨?_, by simp [h, grown, hnone, hstep, hfree]⟩
      rintro f (⟨t⟩ | ⟨b₁, _, hb₁, _⟩)
      · cases hstep
      · rw [hfree] at hb₁
        cases hb₁
  cases step with
  | matchBytes bs t =>
    by_cases hbs : bs = []
    · subst hbs
      exact .inl ⟨_, .noBytes t, rfl⟩
    · obtain ⟨hfree, hgrown⟩ := hedges rfl (by simpa using hbs)
      exact .inr ⟨hfree, by rw [hgrown, extend, if_neg hbs]; rfl⟩
  | otherwise t => exact hslot ⟨t, true⟩ rfl rfl rfl
  | skipTo t => exact hslot ⟨t, false⟩ rfl rfl rfl
  | matchByte | matchAny | peek | invokeCode =>
    obtain ⟨hfree, hgrown⟩ := hedges rfl (by simp)
    exact .inr ⟨hfree, by rw [hgrown]; rfl⟩

theorem Refuses.unique {v : Node ν} {step : BuildStep ν} {f f' : BuildFault}
    (h : v.Refuses step f) (h' : v.Refuses step f') : f = f' := by
  cases h with
  | noBytes t =>
    cases h' with
    | noBytes => rfl
    | taken _ _ _ hstep => cases hstep
  | taken _ _ _ hstep =>
    cases h' with
    | noBytes => cases hstep
    | taken => rfl

theorem wellFormed_of_not_refuses {v : Node ν} {step : BuildStep ν} (h : ∀ f, ¬v.Refuses step f)
    {e : Edge ν} (he : e ∈ step.edges) : e.WellFormed := by
  cases step with
  | matchByte b t | peek b t =>
    obtain rfl := List.mem_singleton.mp he
    exact .inr ⟨[b], by simp, rfl⟩
  | matchAny bs t =>
    obtain ⟨b, _, rfl⟩ := List.mem_map.mp he
    exact .inr ⟨[b], by simp, rfl⟩
  | matchBytes bs t =>
    obtain rfl := List.mem_singleton.mp he
    refine .inr ⟨bs, ?_, rfl⟩
    rintro rfl
    exact h _ (.noBytes t)
  | invokeCode c t =>
    obtain rfl := List.mem_singleton.mp he
    exact .inl ⟨c, rfl, rfl⟩
  | otherwise t | skipTo t => cases he

end Node

theorem Edge.WellFormed.key_ne_none {e : Edge ν} (h : e.WellFormed) : e.key ≠ none := by
  rcases h with ⟨c, hc, _⟩ | ⟨bs, _, hbs⟩
  · simp [hc]
  · simp [hbs]

theorem Edge.WellFormed.map {μ : Type} {e : Edge ν} (h : e.WellFormed) (f : ν → μ) :
    (e.map f).WellFormed := h

end Steps

variable {n m : Nat}

namespace Graph

theorem modify_modify (g : Graph n) (v : Fin n) (f f' : Node (Fin n) → Node (Fin n)) :
    (g.modify v f).modify v f' = g.modify v fun w => f' (f w) := by
  simp [modify, node]

theorem modify_eq_self (g : Graph n) (v : Fin n) {f : Node (Fin n) → Node (Fin n)}
    (h : f (g.node v) = g.node v) : g.modify v f = g := by
  rw [modify, h]
  simp [node]

end Graph

/-- A program that changes a graph in place. What was changed before a failure stays changed. -/
abbrev Editing (n : Nat) := EStateM BuildFault (Graph n)

namespace Editing

def push (v : Fin n) (e : Edge (Fin n)) : Editing n Unit := modify fun g => g.connect v e

/-- Fill the slot for the fallback of a node unless it is taken. -/
def fillSlot (v : Fin n) (b : Fallback (Fin n)) : Editing n Unit := do
  let g ← get
  if (g.node v).fallback.isSome then throw (.fallbackTaken (g.name v))
  else set (g.modify v fun node => { node with fallback := some b })

def call (v : Fin n) : BuildStep (Fin n) → Editing n Unit
  | .matchByte b t => push v ⟨t, some (.bytes [b]), false⟩
  | .matchAny bs t => forM bs fun b => push v ⟨t, some (.bytes [b]), false⟩
  | .matchBytes bs t => do
    let g ← get
    if bs = [] then throw (.emptyKey (g.name v))
    else push v ⟨t, some (.bytes bs), false⟩
  | .peek b t => push v ⟨t, some (.bytes [b]), true⟩
  | .invokeCode c t => push v ⟨t, some (.code c), true⟩
  | .otherwise t => fillSlot v ⟨t, true⟩
  | .skipTo t => fillSlot v ⟨t, false⟩

def ending (g : Graph n) : Except BuildFault (Graph n) → EStateM.Result BuildFault (Graph n) Unit
  | .ok h => .ok () h
  | .error f => .error f g

theorem forM_push (v : Fin n) {α : Type} (edge : α → Edge (Fin n)) (as : List α) (g : Graph n) :
    (forM as fun a => push v (edge a)) g = .ok () (g.modify v (·.connect (as.map edge))) := by
  induction as generalizing g with
  | nil =>
    rw [g.modify_eq_self v ((g.node v).connect_nil)]
    rfl
  | cons a as ih =>
    refine (ih (g.connect v (edge a))).trans ?_
    simp only [Graph.connect, Graph.modify_modify, Node.connect_connect, List.map_cons,
      List.singleton_append]

theorem fillSlot_eq (v : Fin n) (b : Fallback (Fin n)) (g : Graph n) :
    fillSlot v b g = ending g (g.modifyM v (·.setFallback b)) := by
  simp only [fillSlot, bind, EStateM.bind, get, getThe, MonadStateOf.get, EStateM.get,
    Graph.modifyM]
  rcases (g.node v).setFallback_cases b with ⟨⟨b', hb'⟩, h⟩ | ⟨hfree, h⟩
  · rw [h, hb']
    rfl
  · rw [h, hfree]
    rfl

/-- A call comes to what extending the graph comes to, and changes nothing if it fails. -/
theorem call_eq (v : Fin n) (step : BuildStep (Fin n)) (g : Graph n) :
    call v step g = ending g (g.extend v step) := by
  cases step with
  | matchByte | peek | invokeCode => rfl
  | matchAny bs t => exact forM_push v (fun b => ⟨t, some (.bytes [b]), false⟩) bs g
  | matchBytes bs t =>
    by_cases hbs : bs = []
    · subst hbs
      rfl
    · simp only [call, bind, EStateM.bind, get, getThe, MonadStateOf.get, EStateM.get, hbs,
        if_false, Graph.extend, Graph.modifyM, Node.extend]
      rfl
  | otherwise t => exact fillSlot_eq v ⟨t, true⟩ g
  | skipTo t => exact fillSlot_eq v ⟨t, false⟩ g

/-- All that a call can do. -/
theorem call_cases (v : Fin n) (step : BuildStep (Fin n)) (g : Graph n) :
    (∃ f, (g.node v).Refuses step f ∧ call v step g = .error f g) ∨
      ((∀ f, ¬(g.node v).Refuses step f) ∧
        call v step g = .ok () (g.modify v (·.grown step))) := by
  rw [call_eq, Graph.extend, Graph.modifyM]
  rcases (g.node v).extend_cases step with ⟨f, hf, h⟩ | ⟨hfree, h⟩
  · exact .inl ⟨f, hf, by rw [h]; rfl⟩
  · exact .inr ⟨hfree, by rw [h]; rfl⟩

/-- A call fails for the reason for which its node refuses it, and then changes nothing. -/
theorem call_eq_error_iff {v : Fin n} {step : BuildStep (Fin n)} {g g' : Graph n}
    {f : BuildFault} :
    call v step g = .error f g' ↔ (g.node v).Refuses step f ∧ g' = g := by
  rcases call_cases v step g with ⟨f', hf', h⟩ | ⟨hfree, h⟩
  · rw [h]
    constructor
    · rintro ⟨⟩
      exact ⟨hf', rfl⟩
    · rintro ⟨hf, rfl⟩
      rw [hf.unique hf']
  · rw [h]
    constructor
    · rintro ⟨⟩
    · rintro ⟨hf, _⟩
      exact absurd hf (hfree f)

/-- A call that succeeds changes its own node, where it takes no slot that was filled. -/
theorem of_call_eq_ok {v : Fin n} {step : BuildStep (Fin n)} {g g' : Graph n}
    (h : call v step g = .ok () g') :
    (step.fallback? ≠ none → (g.node v).fallback = none) ∧ g'.node v = (g.node v).grown step ∧
      ∀ w, w ≠ v → g'.node w = g.node w := by
  rcases call_cases v step g with ⟨f, _, hcall⟩ | ⟨hfree, hcall⟩
  · rw [hcall] at h
    cases h
  · rw [hcall] at h
    obtain rfl : g.modify v (·.grown step) = g' := by injection h
    refine ⟨fun hstep => ?_, ?_, fun w hw => ?_⟩
    · obtain ⟨b', hb'⟩ := Option.ne_none_iff_exists'.mp hstep
      by_contra hv
      obtain ⟨b, hb⟩ := Option.ne_none_iff_exists'.mp hv
      exact hfree _ (.taken b b' hb hb')
    · rw [Graph.node_modify, if_pos rfl]
    · rw [Graph.node_modify, if_neg hw]

def after (g : Graph n) (v : Fin n) (step : BuildStep (Fin n)) : Graph n :=
  match call v step g with
  | .ok _ h => h
  | .error _ h => h

theorem grows_after (g : Graph n) (v : Fin n) (step : BuildStep (Fin n)) (w : Fin n) :
    (g.node w).Grows ((after g v step).node w) := by
  rcases call_cases v step g with ⟨f, _, h⟩ | ⟨_, h⟩
  · rw [after, h]
    exact .refl _
  · rw [after, h, Graph.node_modify]
    split
    · rename_i hw
      exact hw ▸ Node.grows_grown _ step
    · exact .refl _

theorem wellFormed_after {g : Graph n} (hg : ∀ w, ∀ e ∈ (g.node w).edges, e.WellFormed) (v : Fin n)
    (step : BuildStep (Fin n)) (w : Fin n) :
    ∀ e ∈ ((after g v step).node w).edges, e.WellFormed := by
  rcases call_cases v step g with ⟨f, _, h⟩ | ⟨hfree, h⟩
  · rw [after, h]
    exact hg w
  · rw [after, h, Graph.node_modify]
    split
    · intro e he
      rcases List.mem_append.mp he with he | he
      · exact hg v e he
      · exact Node.wellFormed_of_not_refuses hfree he
    · exact hg w

end Editing

/-- Calls on a graph that has `n` nodes before them and `m` nodes after them, with the nodes that
are made in between. -/
inductive Calls : Nat → Nat → Type
  | done {n : Nat} : Calls n n
  | add {n m : Nat} (name : String) (rest : Calls (n + 1) m) : Calls n m
  | call {n m : Nat} (v : Fin n) (step : BuildStep (Fin n)) (rest : Calls n m) : Calls n m

namespace Calls

/-- The graph after the calls. One that is refused does not keep the others from being made. -/
def run {n m : Nat} : Calls n m → Graph n → Graph m
  | done, g => g
  | add name rest, g => rest.run (g.add name)
  | call v step rest, g => rest.run (Editing.after g v step)

theorem le (calls : Calls n m) : n ≤ m := by
  induction calls with
  | done => exact Nat.le_refl _
  | add _ _ ih => omega
  | call _ _ _ ih => exact ih

/-- Whatever is called, each node keeps its name, its edges and its fallback. -/
theorem grows_run (calls : Calls n m) (g : Graph n) (v : Fin n) :
    ((g.node v).map (Fin.castLE calls.le)).Grows ((calls.run g).node (v.castLE calls.le)) := by
  induction calls with
  | done =>
    have hsame : (g.node v).map (Fin.castLE (Nat.le_refl _)) = g.node v := (g.node v).map_id
    rw [hsame]
    exact .refl _
  | add name rest ih =>
    have hnext := ih (g.add name) v.castSucc
    rw [Graph.node_add_castSucc, Node.map_map] at hnext
    exact hnext
  | call w step rest ih => exact ((Editing.grows_after g w step v).map _).trans (ih _ v)

theorem wellFormed_of_run (calls : Calls n m) {g : Graph n}
    (hg : ∀ v, ∀ e ∈ (g.node v).edges, e.WellFormed) :
    ∀ v, ∀ e ∈ ((calls.run g).node v).edges, e.WellFormed := by
  induction calls with
  | done => exact hg
  | add name rest ih =>
    refine ih fun v => ?_
    refine Fin.lastCases ?_ (fun w => ?_) v
    · rw [Graph.node_add_last]
      simp [Node.bare]
    · rw [Graph.node_add_castSucc]
      intro e he
      obtain ⟨e', he', rfl⟩ := List.mem_map.mp he
      exact (hg w e' he').map Fin.castSucc
  | call w step rest ih => exact ih (Editing.wellFormed_after hg w step)

/-- At any point of any run of calls on a graph that was empty at first: a call fails just for the
reasons there are, and then changes nothing; otherwise it adds its edges in order, or fills a slot
that was free, and leaves all other nodes alone, as does a new node. What the graph is later on has
all that it has at this point, every edge has a key as it should be, and it can be drawn from any of
its nodes in every layout. -/
theorem wellFormed_run (earlier : Calls 0 n) (later : Calls n m) :
    let g := earlier.run .empty
    (∀ v step, Editing.call v step g = Editing.ending g (g.extend v step)) ∧
      (∀ v step f g', Editing.call v step g = .error f g' ↔
        (g.node v).Refuses step f ∧ g' = g) ∧
      (∀ v step g', Editing.call v step g = .ok () g' →
        (step.fallback? ≠ none → (g.node v).fallback = none) ∧
        g'.node v = ⟨(g.node v).name, (g.node v).edges ++ step.edges,
          (g.node v).fallback.or step.fallback?⟩ ∧
        ∀ w, w ≠ v → g'.node w = g.node w) ∧
      (∀ name v, (g.add name).node (Fin.castSucc v) = (g.node v).map Fin.castSucc) ∧
      (∀ v, ((g.node v).map (Fin.castLE later.le)).Grows
        ((later.run g).node (v.castLE later.le))) ∧
      (∀ v, ∀ e ∈ (g.node v).edges, e.WellFormed) ∧
      ∀ (r : Renderer n) (root : Fin n), ∃ text, r.outcome g root = .ok text := by
  intro g
  have hwell : ∀ v, ∀ e ∈ (g.node v).edges, e.WellFormed :=
    earlier.wellFormed_of_run fun v => v.elim0
  exact ⟨fun v step => Editing.call_eq v step g, fun _ _ _ _ => Editing.call_eq_error_iff,
    fun _ _ _ h => Editing.of_call_eq_ok h, fun name v => g.node_add_castSucc name v,
    fun v => later.grows_run g v, hwell,
    fun r root => r.exists_outcome_of_keyed fun v _ e he => (hwell v e he).key_ne_none⟩

end Calls
end StateDiagram
