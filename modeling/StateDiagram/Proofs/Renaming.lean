import Mathlib
import StateDiagram.Proofs.Keyless

/-! Drawing a graph whose nodes are numbered in another way. What is drawn is told by names, by
the order of edges and by what is reached from the root; the numbers of the nodes, and nodes that
are not reached, leave no trace in it (`outcome_eq_of_matches`). -/
namespace StateDiagram

section Lists

variable {α β : Type} {f : α → β} {s : Set α}

theorem mem_map_iff_of_injOn (hf : Set.InjOn f s) {a : α} {xs : List α} (ha : a ∈ s)
    (hxs : ∀ x ∈ xs, x ∈ s) : f a ∈ xs.map f ↔ a ∈ xs := by
  rw [List.mem_map]
  constructor
  · rintro ⟨x, hx, he⟩
    exact hf (hxs x hx) ha he ▸ hx
  · exact fun h => ⟨a, h, rfl⟩

variable [DecidableEq α] [DecidableEq β]

theorem eraseDups_map_of_injOn (hf : Set.InjOn f s) {xs : List α} (hxs : ∀ x ∈ xs, x ∈ s) :
    (xs.map f).eraseDups = xs.eraseDups.map f := by
  induction xs using List.reverseRecOn with
  | nil => rfl
  | append_singleton xs x ih =>
    have hinit : ∀ y ∈ xs, y ∈ s := fun y hy => hxs y (List.mem_append_left _ hy)
    have hx : x ∈ s := hxs x (by simp)
    rw [List.map_append, List.map_singleton, eraseDups_concat, eraseDups_concat, ih hinit]
    by_cases h : x ∈ xs
    · rw [if_pos ((mem_map_iff_of_injOn hf hx hinit).mpr h), if_pos h]
    · rw [if_neg fun hm => h ((mem_map_iff_of_injOn hf hx hinit).mp hm), if_neg h,
        List.map_append, List.map_singleton]

theorem lookup_map_of_injOn {γ : Type} (hf : Set.InjOn f s) {a : α} {xs : List (α × γ)}
    (ha : a ∈ s) (hxs : ∀ x ∈ xs, x.1 ∈ s) :
    (xs.map fun x => (f x.1, x.2)).lookup (f a) = xs.lookup a := by
  induction xs with
  | nil => rfl
  | cons x xs ih =>
    have hx := hxs x List.mem_cons_self
    have hrest := ih fun y hy => hxs y (List.mem_cons_of_mem x hy)
    rw [List.map_cons, List.lookup_cons, List.lookup_cons, hrest]
    have hbeq : (f a == f x.1) = (a == x.1) := by
      rw [Bool.eq_iff_iff, beq_iff_eq, beq_iff_eq, hf.eq_iff ha hx]
    rw [hbeq]

end Lists

section Names

variable {ν μ : Type} [DecidableEq ν] [DecidableEq μ] {f : ν → μ} {s : Set ν}

namespace Identifiers

theorem find?_map (hf : Set.InjOn f s) {ids : Identifiers ν} (hids : ∀ e ∈ ids.entries, e.1 ∈ s)
    {v : ν} (hv : v ∈ s) : (ids.map f).find? (f v) = ids.find? v :=
  lookup_map_of_injOn hf hv hids

theorem idOf_map (hf : Set.InjOn f s) {ids : Identifiers ν} (hids : ∀ e ∈ ids.entries, e.1 ∈ s)
    {v : ν} (hv : v ∈ s) (name : String) : (ids.map f).idOf (f v) name = ids.idOf v name := by
  rw [idOf, find?_map hf hids hv]
  rfl

theorem assign_map (hf : Set.InjOn f s) {ids : Identifiers ν} (hids : ∀ e ∈ ids.entries, e.1 ∈ s)
    {v : ν} (hv : v ∈ s) (name : String) :
    (ids.map f).assign (f v) name = (ids.assign v name).map f := by
  rw [assign, assign, find?_map hf hids hv]
  split
  · rfl
  · have hnext : (ids.map f).next name = ids.next name := rfl
    rw [hnext]
    simp [map]

omit [DecidableEq μ] in
theorem entries_assign_subset {ids : Identifiers ν} (hids : ∀ e ∈ ids.entries, e.1 ∈ s) {v : ν}
    (hv : v ∈ s) (name : String) : ∀ e ∈ (ids.assign v name).entries, e.1 ∈ s := by
  intro e he
  rw [assign] at he
  split at he
  · exact hids e he
  · rcases List.mem_append.mp he with he | he
    · exact hids e he
    · rw [List.mem_singleton.mp he]
      exact hv

theorem foldl_assign_map (hf : Set.InjOn f s) {name : ν → String} {name' : μ → String}
    (hname : ∀ v ∈ s, name' (f v) = name v) {vs : List ν} (hvs : ∀ v ∈ vs, v ∈ s) :
    (vs.map f).foldl (fun ids w => ids.assign w (name' w)) empty =
        (vs.foldl (fun ids v => ids.assign v (name v)) empty).map f ∧
      ∀ e ∈ (vs.foldl (fun ids v => ids.assign v (name v)) empty).entries, e.1 ∈ s := by
  induction vs using List.reverseRecOn with
  | nil => exact ⟨rfl, by simp [empty]⟩
  | append_singleton vs v ih =>
    have hv : v ∈ s := hvs v (by simp)
    obtain ⟨hmap, hentries⟩ := ih fun w hw => hvs w (List.mem_append_left _ hw)
    rw [List.map_append, List.foldl_append, List.foldl_append, hmap]
    simp only [List.map_singleton, List.foldl_cons, List.foldl_nil, hname v hv]
    exact ⟨assign_map hf hentries hv (name v), entries_assign_subset hentries hv (name v)⟩

end Identifiers

def EdgeGroup.map (f : ν → μ) (group : EdgeGroup ν) : EdgeGroup μ :=
  ⟨f group.target, group.edges.map (·.map f)⟩

omit [DecidableEq ν] [DecidableEq μ] in
theorem EdgeGroup.shapes_map (f : ν → μ) (group : EdgeGroup ν) :
    (group.map f).shapes = group.shapes := by
  have hidx : (group.map f).edges.findIdx? (·.key.isNone) =
      group.edges.findIdx? (·.key.isNone) := by
    rw [EdgeGroup.map, List.findIdx?_map]
    rfl
  have hkeys : (group.map f).edges.filterMap (·.key) = group.edges.filterMap (·.key) := by
    rw [EdgeGroup.map, List.filterMap_map]
    rfl
  rw [EdgeGroup.shapes, EdgeGroup.shapes, hidx, hkeys]

namespace Node

omit [DecidableEq ν] [DecidableEq μ] in
theorem successors_map (f : ν → μ) (v : Node ν) : (v.map f).successors = v.successors.map f := by
  have hfallback : ((v.map f).fallback.map (·.target)).toList =
      (v.fallback.map (·.target)).toList.map f := by
    cases hv : v.fallback <;> simp [map, hv, Fallback.map]
  have hedges : (v.map f).edges.map (·.target) = (v.edges.map (·.target)).map f := by
    simp [map, Edge.map]
  rw [successors, successors, hfallback, hedges, List.map_append, List.map_reverse]

theorem targets_map (hf : Set.InjOn f s) {v : Node ν} (hv : ∀ t ∈ v.successors, t ∈ s)
    (stays : Bool) : (v.map f).targets stays = (v.targets stays).map f := by
  have hall : ∀ t ∈ (v.edges.filter (·.stays == stays)).map (·.target), t ∈ s := by
    intro t ht
    obtain ⟨e, he, rfl⟩ := List.mem_map.mp ht
    exact hv _ (mem_successors.mpr (.inr ⟨e, (List.mem_filter.mp he).1, rfl⟩))
  have hsame : ((v.map f).edges.filter (·.stays == stays)).map (·.target) =
      ((v.edges.filter (·.stays == stays)).map (·.target)).map f := by
    rw [map, List.filter_map, List.map_map, List.map_map]
    rfl
  rw [targets, hsame, eraseDups_map_of_injOn hf hall, targets]

theorem edgesTo_map (hf : Set.InjOn f s) {v : Node ν} (hv : ∀ t ∈ v.successors, t ∈ s)
    (stays : Bool) {t : ν} (ht : t ∈ s) :
    (v.map f).edgesTo stays (f t) = (v.edgesTo stays t).map (·.map f) := by
  rw [edgesTo, map, List.filter_map, edgesTo]
  congr 1
  refine List.filter_congr fun e he => ?_
  have htarget : e.target ∈ s := hv _ (mem_successors.mpr (.inr ⟨e, he, rfl⟩))
  have hbeq : (f e.target == f t) = (e.target == t) := by
    rw [Bool.eq_iff_iff, beq_iff_eq, beq_iff_eq, hf.eq_iff htarget ht]
  rw [Function.comp_apply, Edge.map, hbeq]

/-- Grouping does not look at targets but to tell them apart. -/
theorem groups_map (hf : Set.InjOn f s) {v : Node ν} (hv : ∀ t ∈ v.successors, t ∈ s)
    (stays : Bool) : (v.map f).groups stays = (v.groups stays).map (EdgeGroup.map f) := by
  rw [groups_eq_map, groups_eq_map, targets_map hf hv, List.map_map, List.map_map]
  refine List.map_congr_left fun t ht => ?_
  have hmem : t ∈ s := hv t (mem_successors_of_mem_targets ht)
  rw [Function.comp_apply, Function.comp_apply, edgesTo_map hf hv stays hmem]
  rfl

end Node
end Names

namespace Graph

variable {n m : Nat}

/-- What `g` has within reach of `root` is what `h` has within reach of `root'`, but for the numbers
of the nodes: `f` takes the one to the other, each node once, and keeps the name of a node, its
edges with their order, keys and flags, and its fallback. -/
structure Matches (g : Graph n) (root : Fin n) (h : Graph m) (root' : Fin m) (f : Fin n → Fin m) :
    Prop where
  bijOn : Set.BijOn f {v | g.Reaches root v} {w | h.Reaches root' w}
  root_eq : f root = root'
  node_eq : ∀ v, g.Reaches root v → h.node (f v) = (g.node v).map f

namespace Matches

variable {g : Graph n} {root : Fin n} {h : Graph m} {root' : Fin m} {f : Fin n → Fin m}

theorem name_eq (hm : g.Matches root h root' f) {v : Fin n} (hv : g.Reaches root v) :
    h.name (f v) = g.name v := by
  rw [name, hm.node_eq v hv]
  rfl

/-- If different nodes have different images, what is reached corresponds by itself. -/
theorem of_injective (hf : Function.Injective f) (hroot : f root = root')
    (hnode : ∀ v, h.node (f v) = (g.node v).map f) : g.Matches root h root' f where
  bijOn := by
    refine ⟨fun v hv => ?_, hf.injOn, fun w hw => ?_⟩
    · induction hv with
      | root => exact hroot ▸ .root
      | @step v w _ hw ih =>
        refine Reaches.step ih ?_
        rw [hnode v, Node.successors_map]
        exact List.mem_map_of_mem hw
    · induction hw with
      | root => exact ⟨root, .root, hroot⟩
      | @step w w' _ hw' ih =>
        obtain ⟨v, hv, rfl⟩ := ih
        rw [hnode v, Node.successors_map] at hw'
        obtain ⟨v', hv', rfl⟩ := List.mem_map.mp hw'
        exact ⟨v', Reaches.step hv hv', rfl⟩
  root_eq := hroot
  node_eq v _ := hnode v

/-- Walks through both graphs go on alike. -/
theorem walk_map (hm : g.Matches root h root' f) (stack seen : List (Fin n))
    (hstack : ∀ v ∈ stack, g.Reaches root v) (hseen : ∀ v ∈ seen, g.Reaches root v) :
    h.walk (stack.map f) (seen.map f) = (g.walk stack seen).map f := by
  fun_induction g.walk stack seen with
  | case1 seen => exact walk_nil h (seen.map f)
  | case2 v stack seen hv ih =>
    rw [List.map_cons, walk_seen h (List.mem_map_of_mem hv)]
    exact ih (fun w hw => hstack w (List.mem_cons_of_mem v hw)) hseen
  | case3 v stack seen hv ih =>
    have hreach := hstack v List.mem_cons_self
    -- No two nodes within reach have one image, so a fresh node stays fresh.
    have hfresh : f v ∉ seen.map f := fun hmem =>
      hv ((mem_map_iff_of_injOn hm.bijOn.injOn hreach hseen).mp hmem)
    rw [List.map_cons, walk_fresh h hfresh, hm.node_eq v hreach, Node.successors_map,
      ← List.map_append, ← List.map_cons, ih, List.map_cons]
    · intro w hw
      rcases List.mem_append.mp hw with hw | hw
      · exact .step hreach hw
      · exact hstack w (List.mem_cons_of_mem v hw)
    · intro w hw
      rcases List.mem_cons.mp hw with rfl | hw
      · exact hreach
      · exact hseen w hw

theorem reachableFrom_eq (hm : g.Matches root h root' f) :
    h.reachableFrom root' = (g.reachableFrom root).map f := by
  have hwalk := hm.walk_map [root] [] (by simpa using Reaches.root) (by simp)
  rw [List.map_singleton, hm.root_eq, List.map_nil] at hwalk
  exact hwalk

theorem idOf_eq (hm : g.Matches root h root' f) {v : Fin n} (hv : g.Reaches root v) :
    (h.identifiers root').idOf (f v) (h.name (f v)) = (g.identifiers root).idOf v (g.name v) := by
  obtain ⟨hmap, hentries⟩ := Identifiers.foldl_assign_map hm.bijOn.injOn
    (fun w hw => hm.name_eq hw) (fun w hw => (mem_reachableFrom_iff g root w).mp hw)
  rw [identifiers, hm.reachableFrom_eq, hmap, hm.name_eq hv]
  exact Identifiers.idOf_map hm.bijOn.injOn hentries hv (g.name v)

variable {id : Fin n → String} {id' : Fin m → String}

theorem groupStatements_eq (hm : g.Matches root h root' f)
    (hid : ∀ v, g.Reaches root v → id' (f v) = id v) {v : Fin n} (hv : g.Reaches root v)
    (stays : Bool) : h.groupStatements id' (f v) stays = g.groupStatements id v stays := by
  have hsucc : ∀ t ∈ (g.node v).successors, t ∈ {w | g.Reaches root w} :=
    fun t ht => Reaches.step hv ht
  rw [groupStatements, groupStatements, hm.node_eq v hv, Node.groups_map hm.bijOn.injOn hsucc,
    List.mapM_map]
  congr 1
  refine mapM_congr fun group hgroup => ?_
  have ht : g.Reaches root group.target := hsucc _ (Node.target_mem_of_mem_groups hgroup)
  have hshapes : h.shapes (f v) (group.map f) = g.shapes v group := by
    rw [shapes, shapes, EdgeGroup.shapes_map, hm.name_eq hv]
    have htarget : h.name (group.map f).target = g.name group.target := hm.name_eq ht
    rw [htarget]
  have htarget : id' (group.map f).target = id group.target := hid _ ht
  rw [Function.comp_apply, hshapes, hid v hv, htarget]

theorem fallbackStatements_eq (hm : g.Matches root h root' f)
    (hid : ∀ v, g.Reaches root v → id' (f v) = id v) {v : Fin n} (hv : g.Reaches root v) :
    h.fallbackStatements id' (f v) = g.fallbackStatements id v := by
  have hnode : (h.node (f v)).fallback = (g.node v).fallback.map (·.map f) := by
    rw [hm.node_eq v hv]
    rfl
  rw [fallbackStatements, fallbackStatements, hnode]
  cases hb : (g.node v).fallback with
  | none => rfl
  | some b =>
    have ht : g.Reaches root b.target := .step hv (Node.mem_successors.mpr (.inl ⟨b, hb, rfl⟩))
    simp [Fallback.map, hid v hv, hid b.target ht]

theorem block_eq (hm : g.Matches root h root' f)
    (hid : ∀ v, g.Reaches root v → id' (f v) = id v) {v : Fin n} (hv : g.Reaches root v) :
    h.block id' (f v) = g.block id v := by
  rw [block, block, hm.groupStatements_eq hid hv, hm.groupStatements_eq hid hv,
    hm.fallbackStatements_eq hid hv, hid v hv]

theorem blocks_eq (hm : g.Matches root h root' f) : h.blocks root' = g.blocks root := by
  rw [blocks, blocks, hm.reachableFrom_eq, List.mapM_map]
  refine mapM_congr fun v hv => ?_
  exact hm.block_eq (fun w hw => hm.idOf_eq hw) ((mem_reachableFrom_iff g root v).mp hv)

theorem draw_eq (hm : g.Matches root h root' f) (layout : Layout) :
    h.draw layout root' = g.draw layout root := by
  rw [draw, draw, hm.blocks_eq]

end Matches
end Graph

/-- With equal layouts, graphs that match within reach of their roots are drawn as the same text,
or the same failure is reported. -/
theorem Renderer.outcome_eq_of_matches {n m : Nat} (r : Renderer n) (s : Renderer m)
    (hlayout : r.layout = s.layout) {g : Graph n} {root : Fin n} {h : Graph m} {root' : Fin m}
    {f : Fin n → Fin m} (hm : g.Matches root h root' f) :
    r.outcome g root = s.outcome h root' := by
  have hdraw : h.draw s.layout root' = g.draw r.layout root := by
    rw [Graph.draw, Graph.draw, hm.blocks_eq, hlayout]
  simp only [outcome, draw, hdraw]

/-- Two nodes of one name, a cycle and a fallback to where an edge leads. The last node is not
reached from the first one. -/
def tidy : Graph 4 :=
  ⟨#v[⟨"s", [⟨1, some (.bytes [0x61]), false⟩, ⟨2, some (.bytes [0x62]), false⟩,
      ⟨0, some (.code 1), true⟩], some ⟨1, true⟩⟩, ⟨"s", [⟨0, some (.bytes [0x78]), true⟩], none⟩,
    ⟨"t", [], some ⟨0, false⟩⟩, ⟨"s", [⟨0, none, false⟩], none⟩]⟩

def shuffled : Graph 5 :=
  ⟨#v[⟨"s", [⟨3, some (.bytes [0x78]), true⟩], none⟩, ⟨"q", [⟨3, none, true⟩], some ⟨2, true⟩⟩,
    ⟨"s", [], none⟩, ⟨"s", [⟨0, some (.bytes [0x61]), false⟩, ⟨4, some (.bytes [0x62]), false⟩,
      ⟨3, some (.code 1), true⟩], some ⟨0, true⟩⟩, ⟨"t", [], some ⟨3, false⟩⟩]⟩

def renumber : Fin 4 → Fin 5 := ![3, 0, 4, 1]

theorem Renderer.outcome_shuffled :
    tidy.Matches 0 shuffled 3 renumber ∧
      (Renderer.new .plain).outcome tidy 0 = (Renderer.new .plain).outcome shuffled 3 := by
  have htidy (v : Fin 4) : tidy.Reaches 0 v ↔ v ∈ ([0, 1, 2] : List (Fin 4)) := by
    have hwalk : tidy.reachableFrom 0 = [0, 1, 2] := by cbv
    rw [← Graph.mem_reachableFrom_iff, hwalk]
  have hshuffled (w : Fin 5) : shuffled.Reaches 3 w ↔ w ∈ ([3, 0, 4] : List (Fin 5)) := by
    have hwalk : shuffled.reachableFrom 3 = [3, 0, 4] := by cbv
    rw [← Graph.mem_reachableFrom_iff, hwalk]
  have hmaps : ∀ v ∈ ([0, 1, 2] : List (Fin 4)), renumber v ∈ ([3, 0, 4] : List (Fin 5)) := by
    decide
  have honto : ∀ w ∈ ([3, 0, 4] : List (Fin 5)), ∃ v ∈ ([0, 1, 2] : List (Fin 4)),
      renumber v = w := by decide
  have hinj : Function.Injective renumber := by decide
  have hnodes : ∀ v ∈ ([0, 1, 2] : List (Fin 4)),
      shuffled.node (renumber v) = (tidy.node v).map renumber := by decide
  have hmatches : tidy.Matches 0 shuffled 3 renumber :=
    { bijOn := by
        refine ⟨fun v hv => (hshuffled _).mpr (hmaps v ((htidy v).mp hv)), hinj.injOn, ?_⟩
        intro w hw
        obtain ⟨v, hv, he⟩ := honto w ((hshuffled w).mp hw)
        exact ⟨v, (htidy v).mpr hv, he⟩
      root_eq := rfl
      node_eq := fun v hv => hnodes v ((htidy v).mp hv) }
  exact ⟨hmatches,
    Renderer.outcome_eq_of_matches (n := 4) (m := 5) (.new .plain) (.new .plain) rfl hmatches⟩

end StateDiagram
