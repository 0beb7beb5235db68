import StateDiagram.Proofs.Arrows

/-! The statements of a drawing as a graph on identifiers. Nodes are not declared, so a node is in
the picture only if an edge leads to it. Every block but the first has such an edge in a block
before it, every edge leads to the node of exactly one block, and what is reached from the name of
the root are the identifiers of the blocks (`Reading.reaches_iff_mem_blocks`). -/
namespace StateDiagram

def Reading.Links (x : Reading) (a b : String) : Prop :=
  ∃ label color, (a, b, label, color) ∈ x.edges

variable {n : Nat}

namespace Graph

variable {g : Graph n} {root : Fin n}

theorem map_id_arrowBlock (g : Graph n) (root : Fin n) (vs : List (Fin n)) :
    (vs.map (g.arrowBlock root)).map (·.id) = vs.map (g.drawnId root) := by
  rw [List.map_map]
  rfl

theorem exists_statement_of_leads {v w : Fin n} (hv : (g.node v).Keyed) (hl : g.Leads v w) :
    ∃ s ∈ (g.arrowBlock root v).statements, s.target = g.drawnId root w := by
  obtain ⟨a, ha, hw⟩ := (Node.exists_arrow_iff hv v w).mpr (leads_iff.mp hl)
  exact ⟨a.statement (g.drawnId root), List.mem_map_of_mem ha, congrArg (g.drawnId root) hw⟩

/-- A block that is not the first is that of a node to which a node before it leads. -/
theorem exists_statement_before (hkeyed : ∀ v, g.Reaches root v → (g.node v).Keyed)
    {before after : List Block} {b : Block}
    (h : (g.reachableFrom root).map (g.arrowBlock root) = before ++ b :: after) :
    before = [] ∨ ∃ b' ∈ before, ∃ s ∈ b'.statements, s.target = b.id := by
  obtain ⟨vs, ws, hwalk, rfl, hrest⟩ := List.map_eq_append_iff.mp h
  obtain ⟨w, ws, rfl, rfl, rfl⟩ := List.map_eq_cons_iff.mp hrest
  rcases led_reachableFrom g root vs w ws hwalk with rfl | ⟨v, hv, hl⟩
  · exact .inl rfl
  · have hmem : v ∈ g.reachableFrom root := hwalk ▸ List.mem_append_left _ hv
    have hreach : g.Reaches root v := (mem_reachableFrom_iff g root v).mp hmem
    exact .inr ⟨_, List.mem_map_of_mem hv, exists_statement_of_leads (hkeyed v hreach) hl⟩

theorem countP_id_eq_one {w : Fin n} (hw : g.Reaches root w) :
    ((g.reachableFrom root).map (g.arrowBlock root)).countP (·.id == g.drawnId root w) = 1 := by
  have hsame : ∀ v ∈ g.reachableFrom root,
      (g.drawnId root v == g.drawnId root w) = true ↔ (v == w) = true := by
    intro v hv
    rw [beq_iff_eq, beq_iff_eq, g.drawnId_inj ((mem_reachableFrom_iff g root v).mp hv) hw]
  calc
    ((g.reachableFrom root).map (g.arrowBlock root)).countP (·.id == g.drawnId root w)
    _ = (g.reachableFrom root).countP fun v => g.drawnId root v == g.drawnId root w := by
      rw [List.countP_map]
      rfl
    _ = (g.reachableFrom root).count w := List.countP_congr hsame
    _ = 1 := List.count_eq_one_of_mem (nodup_reachableFrom g root)
      ((mem_reachableFrom_iff g root w).mpr hw)

/-- Between identifiers the statements lead as the nodes do. -/
theorem links_iff (hkeyed : ∀ v, g.Reaches root v → (g.node v).Keyed)
    {attributes : List (String × String)} {v : Fin n} (hv : g.Reaches root v) (id : String) :
    (g.told root attributes).Links (g.drawnId root v) id ↔
      ∃ w, g.Leads v w ∧ id = g.drawnId root w := by
  constructor
  · rintro ⟨label, color, hmem⟩
    obtain ⟨a, ha, he⟩ := List.mem_map.mp hmem
    obtain ⟨hsource, htarget, -⟩ : g.drawnId root a.source = g.drawnId root v ∧
        g.drawnId root a.target = id ∧ _ := by simpa [Statement.texts, Arrow.statement] using he
    obtain rfl : a.source = v :=
      (g.drawnId_inj (reaches_of_mem_arrows hkeyed ha).1 hv).mp hsource
    obtain ⟨u, hu, hau⟩ := List.mem_flatMap.mp ha
    obtain rfl := Node.source_of_mem_arrows hau
    have hnext := (Node.exists_arrow_iff (hkeyed _ hv) a.source a.target).mp ⟨a, hau, rfl⟩
    exact ⟨a.target, leads_iff.mpr hnext, htarget.symm⟩
  · rintro ⟨w, hl, rfl⟩
    obtain ⟨a, ha, rfl⟩ := (Node.exists_arrow_iff (hkeyed v hv) v w).mpr (leads_iff.mp hl)
    have hmem : a ∈ g.arrows root :=
      List.mem_flatMap.mpr ⟨v, (mem_reachableFrom_iff g root v).mpr hv, ha⟩
    have htexts : (a.statement (g.drawnId root)).texts =
        (g.drawnId root v, g.drawnId root a.target, a.label, a.color.name) := by
      rw [← Node.source_of_mem_arrows ha]
      rfl
    exact ⟨a.label, a.color.name, htexts ▸ List.mem_map_of_mem hmem⟩

/-- From the identifier of the root just those of what can be reached are reached. -/
theorem reflTransGen_links_iff (hkeyed : ∀ v, g.Reaches root v → (g.node v).Keyed)
    {attributes : List (String × String)} (id : String) :
    Relation.ReflTransGen (g.told root attributes).Links (g.drawnId root root) id ↔
      ∃ v, g.Reaches root v ∧ id = g.drawnId root v := by
  constructor
  · intro h
    induction h with
    | refl => exact ⟨root, .root, rfl⟩
    | tail _ hl ih =>
      obtain ⟨v, hv, rfl⟩ := ih
      obtain ⟨w, hw, rfl⟩ := (links_iff hkeyed hv _).mp hl
      exact ⟨w, .step hv (leads_iff.mp hw), rfl⟩
  · rintro ⟨v, hv, rfl⟩
    induction hv with
    | root => exact .refl
    | @step v w hv hw ih => exact ih.tail ((links_iff hkeyed hv _).mpr ⟨w, leads_iff.mpr hw, rfl⟩)

end Graph

/-- In the text of a drawing, the block of every node that can be reached but the root has an edge
to it in a block before, every edge leads to the identifier of exactly one block, and what is
reached from the name of the root along the edges are the identifiers of the blocks. -/
theorem Reading.reaches_iff_mem_blocks (r : Renderer n) (g : Graph n) (root : Fin n) {d : Document}
    (h : (r.draw g root).1 = .ok d) :
    ∃ blocks x, (r.blocks g root).1 = .ok blocks ∧ Reading.read? d.render = some x ∧
      x.edges = (blocks.flatMap (·.statements)).map Statement.texts ∧
      blocks.map (·.id) = (g.reachableFrom root).map (g.drawnId root) ∧
      (blocks.map (·.id)).head? = some (g.name root) ∧
      (∀ before b after, blocks = before ++ b :: after →
        before = [] ∨ ∃ b' ∈ before, ∃ s ∈ b'.statements, s.target = b.id) ∧
      (∀ e ∈ x.edges, blocks.countP (·.id == e.2.1) = 1) ∧
      ∀ id, Relation.ReflTransGen x.Links (g.name root) id ↔ id ∈ blocks.map (·.id) := by
  obtain ⟨blocks, hblocks, hread⟩ := Graph.read?_of_draw h
  have hkeyed := Graph.keyed_of_blocks hblocks
  have hroot : g.drawnId root root = g.name root := g.idOf_identifiers_root root
  obtain rfl := Graph.eq_map_arrowBlock hblocks
  refine ⟨_, g.told root r.layout.attributes, hblocks, hread, ?_, g.map_id_arrowBlock root _, ?_,
    fun before b after hb => Graph.exists_statement_before hkeyed hb, fun e he => ?_, fun id => ?_⟩
  · rw [Graph.flatMap_statements_arrowBlock, List.map_map]
    rfl
  · rw [Graph.map_id_arrowBlock, Graph.reachableFrom_eq_cons, List.map_cons, List.head?_cons, hroot]
  · obtain ⟨a, ha, rfl⟩ := List.mem_map.mp he
    exact Graph.countP_id_eq_one (Graph.reaches_of_mem_arrows hkeyed ha).2
  · rw [← hroot, Graph.reflTransGen_links_iff hkeyed, Graph.map_id_arrowBlock, List.mem_map]
    simp only [Graph.mem_reachableFrom_iff, eq_comm]

/-- Edges of every shape, the only ones that lead to their targets. The names look like those that
are made up, and the last node cannot be reached. -/
def spread : Graph 6 :=
  ⟨#v[⟨"n", [⟨1, some (.bytes []), false⟩, ⟨2, some (.bytes [0x61, 0x62]), true⟩,
      ⟨3, some (.code 7), true⟩], some ⟨4, true⟩⟩, ⟨"n", [⟨0, some (.bytes [0x63]), false⟩], none⟩,
    ⟨"n_0", [], none⟩, ⟨"n", [⟨3, some (.bytes [0x64]), true⟩], some ⟨0, false⟩⟩, ⟨"m", [], none⟩,
    ⟨"m", [⟨5, none, false⟩], none⟩]⟩

theorem Reading.reaches_iff_spread :
    ∃ d x, ((Renderer.new .plain).draw spread 0).1 = .ok d ∧ Reading.read? d.render = some x ∧
      ∀ id, Relation.ReflTransGen x.Links "n" id ↔ id ∈ ["n", "m", "n_0", "n_0_0", "n_1"] := by
  have hd : ∃ d, ((Renderer.new .plain).draw spread 0).1 = .ok d := ⟨_, by cbv⟩
  obtain ⟨d, hd⟩ := hd
  obtain ⟨blocks, x, -, hread, -, hids, -, -, -, hreaches⟩ :=
    Reading.reaches_iff_mem_blocks (.new .plain) spread 0 hd
  have hnames : (spread.reachableFrom 0).map (spread.drawnId 0) =
      ["n", "m", "n_0", "n_0_0", "n_1"] := by cbv
  rw [hids, hnames] at hreaches
  exact ⟨d, x, hd, hread, hreaches⟩

end StateDiagram
