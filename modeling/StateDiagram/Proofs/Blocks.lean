import Mathlib
import StateDiagram.Drawing
import StateDiagram.Proofs.Attempts
import StateDiagram.Proofs.Grouping
import StateDiagram.Proofs.Runs
import StateDiagram.Proofs.Walk

/-! What the block of a node holds, told by filters over its edges alone. Unless some node that
can be reached has an edge without a key, there is one block for each such node, and every edge
is drawn by exactly one of its statements (`blocks_eq_reference`). -/
namespace StateDiagram

variable {ν : Type}

def Edge.hasBytes (e : Edge ν) : Bool := e.key.any fun k => !k.isCode

def Edge.hasCode (e : Edge ν) : Bool := e.key.any Key.isCode

/-- What is told of byte keys: the runs of those of one byte, in their order whatever stands
between them, and then the others. -/
def Label.ofBytes (keys : List Key) : List String :=
  ((keys.filterMap Key.singleByte?).splitBy ByteRange.follows).map Label.run ++
    (keys.filterMap Key.sequence?).map Label.sequence

def Label.ofCodes (keys : List Key) : List String := (keys.filterMap Key.code?).map Label.code

/-- The edges of a node that are drawn as one statement. -/
structure Bundle (ν : Type) where
  target : ν
  kind : EdgeKind
  edges : List (Edge ν)
  deriving Repr

namespace Bundle

def keys (b : Bundle ν) : List Key := b.edges.filterMap (·.key)

def labels (b : Bundle ν) : List String :=
  if b.kind = .invoke then Label.ofCodes b.keys else Label.ofBytes b.keys

def statement (id : ν → String) (source : ν) (b : Bundle ν) : Statement :=
  ⟨id source, id b.target, Label.join b.labels, b.kind.color⟩

end Bundle

namespace Node

variable [DecidableEq ν]

/-- The bundles of the edges with a flag that lead to `t`: the byte keys, then the codes. -/
def bundlesTo (v : Node ν) (stays : Bool) (t : ν) : List (Bundle ν) :=
  let edges := v.edgesTo stays t
  (if edges.any Edge.hasBytes then [⟨t, .ofStays stays, edges.filter Edge.hasBytes⟩] else []) ++
    if edges.any Edge.hasCode then [⟨t, .invoke, edges.filter Edge.hasCode⟩] else []

def bundles (v : Node ν) : List (Bundle ν) :=
  [false, true].flatMap fun stays => (v.targets stays).flatMap (v.bundlesTo stays)

/-- The statements of a node: its bundles, and then its fallback in the color of its flag. -/
def reference (v : Node ν) (id : ν → String) (source : ν) : List Statement :=
  v.bundles.map (Bundle.statement id source) ++
    v.fallback.toList.map fun b =>
      ⟨id source, id b.target, Label.fallback b.stays, (EdgeKind.ofStays b.stays).color⟩

end Node

theorem Key.isCode_iff {k : Key} :
    k.isCode = true ↔ k.singleByte? = none ∧ k.sequence? = none := by
  rcases k with c | ⟨_ | ⟨b, _ | ⟨b', bs⟩⟩⟩ <;> simp [isCode, singleByte?, sequence?]

theorem Key.code?_eq_none_iff {k : Key} : k.code? = none ↔ k.isCode = false := by
  cases k <;> simp [code?, isCode]

theorem filterMap_key_filter {β : Type} {p : Edge ν → Bool} {f : Key → Option β}
    (h : ∀ e k, e.key = some k → p e = false → f k = none) (edges : List (Edge ν)) :
    ((edges.filter p).filterMap (·.key)).filterMap f = (edges.filterMap (·.key)).filterMap f := by
  induction edges with
  | nil => rfl
  | cons e edges ih =>
    cases hk : e.key with
    | none => by_cases hp : p e <;> simp [hp, hk, ih]
    | some k =>
      by_cases hp : p e
      · simp only [List.filter_cons, hp, if_true, List.filterMap_cons, hk, ih]
      · have hf : f k = none := h e k hk (by simpa using hp)
        simp [hp, hk, hf, ih]

namespace Label

theorem ofBytes_filter (edges : List (Edge ν)) :
    ofBytes ((edges.filter Edge.hasBytes).filterMap (·.key)) =
      ofBytes (edges.filterMap (·.key)) := by
  have hcode : ∀ (e : Edge ν) k, e.key = some k → e.hasBytes = false → k.isCode = true := by
    intro e k hk hp
    simpa [Edge.hasBytes, hk] using hp
  rw [ofBytes, ofBytes,
    filterMap_key_filter fun e k hk hp => (Key.isCode_iff.mp (hcode e k hk hp)).1,
    filterMap_key_filter fun e k hk hp => (Key.isCode_iff.mp (hcode e k hk hp)).2]

theorem ofCodes_filter (edges : List (Edge ν)) :
    ofCodes ((edges.filter Edge.hasCode).filterMap (·.key)) =
      ofCodes (edges.filterMap (·.key)) := by
  have hbytes : ∀ (e : Edge ν) k, e.key = some k → e.hasCode = false → k.code? = none := by
    intro e k hk hp
    exact Key.code?_eq_none_iff.mpr (by simpa [Edge.hasCode, hk] using hp)
  rw [ofCodes, ofCodes, filterMap_key_filter hbytes]

theorem ofBytes_eq_nil_iff (keys : List Key) :
    ofBytes keys = [] ↔ ∀ k ∈ keys, (!k.isCode) = false := by
  simp only [ofBytes, List.append_eq_nil_iff, List.map_eq_nil_iff, List.splitBy_eq_nil,
    List.filterMap_eq_nil_iff, Bool.not_eq_false', Key.isCode_iff]
  exact ⟨fun h k hk => ⟨h.1 k hk, h.2 k hk⟩, fun h => ⟨fun k hk => (h k hk).1,
    fun k hk => (h k hk).2⟩⟩

theorem ofCodes_eq_nil_iff (keys : List Key) :
    ofCodes keys = [] ↔ ∀ k ∈ keys, k.isCode = false := by
  simp only [ofCodes, List.map_eq_nil_iff, List.filterMap_eq_nil_iff, Key.code?_eq_none_iff]

end Label

theorem any_key_eq_false_iff (p : Key → Bool) (edges : List (Edge ν)) :
    (edges.any fun e => e.key.any p) = false ↔ ∀ k ∈ edges.filterMap (·.key), p k = false := by
  simp only [List.any_eq_false, List.mem_filterMap]
  constructor
  · rintro h k ⟨e, he, hk⟩
    simpa [hk] using h e he
  · intro h e he
    cases hk : e.key with
    | none => simp
    | some k => simpa using h k ⟨e, he, hk⟩

theorem any_hasBytes_iff (edges : List (Edge ν)) :
    edges.any Edge.hasBytes = true ↔ ¬Label.ofBytes (edges.filterMap (·.key)) = [] := by
  rw [Label.ofBytes_eq_nil_iff, ← any_key_eq_false_iff, Bool.not_eq_false]
  rfl

theorem any_hasCode_iff (edges : List (Edge ν)) :
    edges.any Edge.hasCode = true ↔ ¬Label.ofCodes (edges.filterMap (·.key)) = [] := by
  rw [Label.ofCodes_eq_nil_iff, ← any_key_eq_false_iff, Bool.not_eq_false]
  rfl

theorem KeyShapes.statements_ofKeys [DecidableEq ν] (v : Node ν) (id : ν → String) (source : ν)
    (stays : Bool) (t : ν) :
    (KeyShapes.ofKeys ((v.edgesTo stays t).filterMap (·.key))).statements (id source) (id t)
        (.ofStays stays) =
      (v.bundlesTo stays t).map (Bundle.statement id source) := by
  have hlabels (keys : List Key) : (KeyShapes.ofKeys keys).statements (id source) (id t)
      (.ofStays stays) =
      (if Label.ofBytes keys = [] then []
        else [⟨id source, id t, Label.join (Label.ofBytes keys), (EdgeKind.ofStays stays).color⟩]) ++
        if Label.ofCodes keys = [] then []
        else [⟨id source, id t, Label.join (Label.ofCodes keys), EdgeKind.invoke.color⟩] := by
    simp only [KeyShapes.statements, KeyShapes.ofKeys, Label.map_byteRange_compress]
    rfl
  have hkind : EdgeKind.ofStays stays ≠ .invoke := by cases stays <;> decide
  simp only [hlabels, Node.bundlesTo, List.map_append, any_hasBytes_iff, any_hasCode_iff, ite_not]
  congr 1
  · split
    · rfl
    · simp [Bundle.statement, Bundle.labels, Bundle.keys, hkind, Label.ofBytes_filter]
  · split
    · rfl
    · simp [Bundle.statement, Bundle.labels, Bundle.keys, Label.ofCodes_filter]

/-- No edge of a node lacks its key. -/
def Node.Keyed (v : Node ν) : Prop := ∀ e ∈ v.edges, e.key ≠ none

theorem EdgeGroup.shapes_of_keyed {g : EdgeGroup ν} (h : ∀ e ∈ g.edges, e.key ≠ none) :
    g.shapes = .ok (.ofKeys (g.edges.filterMap (·.key))) := by
  have hnone : g.edges.findIdx? (·.key.isNone) = none := by
    rw [List.findIdx?_eq_none_iff]
    intro e he
    exact Option.isNone_eq_false_iff.mpr (Option.isSome_iff_ne_none.mpr (h e he))
  rw [EdgeGroup.shapes, hnone]

namespace Graph

variable {n : Nat}

theorem groupStatements_of_keyed {g : Graph n} {v : Fin n} (h : (g.node v).Keyed)
    (id : Fin n → String) (stays : Bool) :
    g.groupStatements id v stays =
      .ok ((((g.node v).targets stays).flatMap ((g.node v).bundlesTo stays)).map
        (Bundle.statement id v)) := by
  have hgroup : ∀ group ∈ (g.node v).groups stays, (do
      let shapes ← g.shapes v group
      return shapes.statements (id v) (id group.target) (.ofStays stays)) =
      (.ok (((g.node v).bundlesTo stays group.target).map (Bundle.statement id v)) :
        Except KeylessEdge (List Statement)) := by
    intro group hgroup
    rw [Node.groups_eq_map] at hgroup
    obtain ⟨t, _, rfl⟩ := List.mem_map.mp hgroup
    have hkeys : ∀ e ∈ (g.node v).edgesTo stays t, e.key ≠ none :=
      fun e he => h e (List.mem_filter.mp he).1
    rw [shapes, EdgeGroup.shapes_of_keyed hkeys, ← KeyShapes.statements_ofKeys]
    rfl
  rw [groupStatements, mapM_eq_ok_map hgroup, Node.groups_eq_map, List.map_map, List.map_flatMap,
    List.flatMap_def]
  rfl

theorem fallbackStatements_eq_map (g : Graph n) (id : Fin n → String) (v : Fin n) :
    g.fallbackStatements id v = (g.node v).fallback.toList.map fun b =>
      ⟨id v, id b.target, Label.fallback b.stays, (EdgeKind.ofStays b.stays).color⟩ := by
  rw [fallbackStatements]
  cases (g.node v).fallback <;> rfl

theorem block_of_keyed {g : Graph n} {v : Fin n} (h : (g.node v).Keyed) (id : Fin n → String) :
    g.block id v = .ok ⟨id v, (g.node v).reference id v⟩ := by
  rw [block, groupStatements_of_keyed h, groupStatements_of_keyed h, Node.reference,
    fallbackStatements_eq_map]
  simp [Node.bundles, bind, Except.bind, pure, Except.pure]

theorem blocks_of_keyed {g : Graph n} {root : Fin n}
    (h : ∀ v, g.Reaches root v → (g.node v).Keyed) :
    g.blocks root = .ok ((g.reachableFrom root).map fun v =>
      ⟨(g.identifiers root).idOf v (g.name v),
        (g.node v).reference (fun w => (g.identifiers root).idOf w (g.name w)) v⟩) :=
  mapM_eq_ok_map fun v hv => block_of_keyed (h v ((mem_reachableFrom_iff g root v).mp hv)) _

end Graph

section Partition

variable [DecidableEq ν]

theorem Node.flatMap_edges_bundlesTo (v : Node ν) (stays : Bool) (t : ν) :
    (v.bundlesTo stays t).flatMap (·.edges) =
      (v.edgesTo stays t).filter Edge.hasBytes ++ (v.edgesTo stays t).filter Edge.hasCode := by
  have hpart (p : Edge ν → Bool) (kind : EdgeKind) :
      (if (v.edgesTo stays t).any p then
        [(⟨t, kind, (v.edgesTo stays t).filter p⟩ : Bundle ν)] else []).flatMap (·.edges) =
        (v.edgesTo stays t).filter p := by
    cases h : (v.edgesTo stays t).any p with
    | true => simp
    | false =>
      rw [List.any_eq_false] at h
      simp [List.filter_eq_nil_iff.mpr h]
  rw [Node.bundlesTo, List.flatMap_append, hpart, hpart]

/-- The bundles of one target share its edges out. -/
theorem Node.perm_bundlesTo {v : Node ν} (h : v.Keyed) (stays : Bool) (t : ν) :
    ((v.bundlesTo stays t).flatMap (·.edges)).Perm (v.edgesTo stays t) := by
  have hcode : (v.edgesTo stays t).filter Edge.hasCode =
      (v.edgesTo stays t).filter fun e => !e.hasBytes := by
    apply List.filter_congr
    intro e he
    cases hk : e.key with
    | none => exact absurd hk (h e (List.mem_filter.mp he).1)
    | some k => simp [Edge.hasCode, Edge.hasBytes, hk]
  rw [Node.flatMap_edges_bundlesTo, hcode]
  exact List.filter_append_perm _ _

theorem Node.perm_targets (v : Node ν) (stays : Bool) :
    ((v.targets stays).flatMap (v.edgesTo stays)).Perm (v.edges.filter (·.stays == stays)) := by
  have hgroups := EdgeGroup.perm_flatMap_edges_ofEdges (v.edges.filter (·.stays == stays))
  rw [← Node.groups, Node.groups_eq_map, List.flatMap_map] at hgroups
  exact hgroups

/-- Every edge of a node is in exactly one of its bundles. -/
theorem Node.perm_bundles {v : Node ν} (h : v.Keyed) :
    (v.bundles.flatMap (·.edges)).Perm v.edges := by
  have hflag (stays : Bool) : (((v.targets stays).flatMap (v.bundlesTo stays)).flatMap
      (·.edges)).Perm (v.edges.filter (·.stays == stays)) := by
    rw [List.flatMap_assoc]
    exact (List.Perm.flatMap_left _ fun t _ => Node.perm_bundlesTo h stays t).trans
      (Node.perm_targets v stays)
  have hsplit : (v.edges.filter (·.stays == false) ++ v.edges.filter (·.stays == true)).Perm
      v.edges := by
    simpa using List.filter_append_perm (fun e : Edge ν => e.stays == false) v.edges
  rw [Node.bundles, List.flatMap_assoc]
  simpa using ((hflag false).append (hflag true)).trans hsplit

end Partition

/-- If no node that can be reached has an edge without a key, a drawing has one block for each of
them, in the order of the walk, with the statements of its bundles and its fallback; and each of
its edges is in exactly one bundle. -/
theorem Graph.blocks_eq_reference {n : Nat} (r : Renderer n) (g : Graph n) (root : Fin n)
    (h : ∀ v, g.Reaches root v → (g.node v).Keyed) :
    (r.blocks g root).1 = .ok ((g.reachableFrom root).map fun v =>
        ⟨(g.identifiers root).idOf v (g.name v),
          (g.node v).reference (fun w => (g.identifiers root).idOf w (g.name w)) v⟩) ∧
      (g.reachableFrom root).Nodup ∧
      (∀ v, v ∈ g.reachableFrom root ↔ g.Reaches root v) ∧
      ∀ v, g.Reaches root v → ((g.node v).bundles.flatMap (·.edges)).Perm (g.node v).edges := by
  refine ⟨?_, nodup_reachableFrom g root, mem_reachableFrom_iff g root,
    fun v hv => Node.perm_bundles (h v hv)⟩
  exact mapM_eq_ok_map fun v hv => block_of_keyed (h v ((mem_reachableFrom_iff g root v).mp hv)) _

/-- Keys of every shape, in both flags, between edges to two targets. The last node, which has an
edge without a key, cannot be reached. -/
def tangled : Graph 3 :=
  ⟨#v[⟨"n", [⟨1, some (.bytes [0x61]), false⟩, ⟨1, some (.code (-1)), true⟩,
      ⟨0, some (.bytes [0x7a]), false⟩, ⟨1, some (.bytes [0x62]), false⟩,
      ⟨1, some (.bytes [0x78, 0x79]), false⟩, ⟨1, some (.bytes [0x63]), false⟩,
      ⟨1, some (.bytes [0x71]), true⟩], some ⟨0, false⟩⟩, ⟨"n", [], none⟩,
    ⟨"n", [⟨0, none, false⟩], none⟩]⟩

theorem Graph.blocks_tangled :
    (∀ v, tangled.Reaches 0 v → (tangled.node v).Keyed) ∧
      ((Renderer.new .plain).blocks tangled 0).1 = .ok
        [⟨"n", [⟨"n", "n_0", "'a':'c'|'xy'", .black⟩, ⟨"n", "n", "'z'", .black⟩,
          ⟨"n", "n_0", "'q'", .blue⟩, ⟨"n", "n_0", "code=-1", .green⟩,
          ⟨"n", "n", "skipTo", .black⟩]⟩, ⟨"n_0", []⟩] := by
  have hreach : tangled.reachableFrom 0 = [0, 1] := by cbv
  have hkeys : ∀ v ∈ ([0, 1] : List (Fin 3)), ∀ e ∈ (tangled.node v).edges, e.key ≠ none := by
    decide
  have h : ∀ v, tangled.Reaches 0 v → (tangled.node v).Keyed := by
    intro v hv
    rw [← mem_reachableFrom_iff, hreach] at hv
    exact hkeys v hv
  exact ⟨h, (Graph.blocks_eq_reference (.new .plain) tangled 0 h).1.trans (by cbv)⟩

end StateDiagram
