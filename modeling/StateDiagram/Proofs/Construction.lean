import StateDiagram.Graph.Building
import StateDiagram.Proofs.Entries

/-! The graph of a description, made step by step. A first pass makes a bare node for every entry,
a second one looks up ids and changes the nodes in place. Whatever is made until a fault stays.
The construction comes to the graph and root that linking gives at once, or stops with the same
fault (`look_construct`); no node ever refuses a step. -/
namespace StateDiagram

abbrev Arena := List (Node Nat)

inductive Obstacle
  | fault (fault : LinkFault)
  /-- The node of an entry is not found when it is to be filled. -/
  | lost (id : String)
  | refused (fault : BuildFault)
  deriving DecidableEq, Repr

abbrev Building := EStateM Obstacle Arena

namespace Building

/-- The numbers of nodes under the ids of their entries. -/
abbrev Index := List (String × Nat)

def Index.node? (index : Index) (id : String) : Option Nat := List.lookup id index

def make (name : String) : Building Nat := do
  let arena ← get
  set (arena ++ [Node.bare name])
  return arena.length

/-- Change a node by a step that it can refuse. -/
def change (i : Nat) (step : Node Nat → Except BuildFault (Node Nat)) : Building Unit := do
  let arena ← get
  match arena[i]?.mapM step with
  | .error f => throw (.refused f)
  | .ok none => return
  | .ok (some v) => set (arena.set i v)

def resolve (index : Index) (id : String) (missing : Obstacle) : Building Nat :=
  match index.node? id with
  | some i => return i
  | none => throw missing

/-- Make a node for each entry and note its number under the id, which must be a new one. -/
def allocate (index : Index) : List NodeEntry → Building Index
  | [] => return index
  | e :: es => do
    let i ← make e.shownName
    if (index.node? e.id).isSome then throw (.fault (.repeatedId e.id i))
    else allocate (index ++ [(e.id, i)]) es

/-- Add an edge. That of a code never takes input. -/
def addKey (source target : Nat) (peek : Bool) : Key → Building Unit
  | .code c => change source (·.extend (.invokeCode c target))
  | .bytes bs => change source fun v => .ok (v.connect [⟨target, some (.bytes bs), peek⟩])

def addEdge (index : Index) (holder : String) (source : Nat) (x : EdgeEntry)
    (i : Nat) : Building Unit := do
  let target ← resolve index x.target (.fault (.unknownTarget holder i x.target))
  match x.keys with
  | .error f => throw (.fault (.badKey holder i f))
  | .ok (keys, _) => forM keys (addKey source target x.peek)

def addFallback (index : Index) (source : Nat) (e : NodeEntry) : Building Unit :=
  match e.otherwise, e.skipTo with
  | some _, some _ => throw (.fault (.twoFallbacks e.id))
  | some id, none => do
    let target ← resolve index id (.fault (.unknownFallback id))
    change source (·.extend (.otherwise target))
  | none, some id => do
    let target ← resolve index id (.fault (.unknownFallback id))
    change source (·.extend (.skipTo target))
  | none, none => return

/-- Give the node of an entry its edges and its fallback. -/
def fill (index : Index) (e : NodeEntry) : Building Unit := do
  let source ← resolve index e.id (.lost e.id)
  forM e.edges.zipIdx fun p => addEdge index e.id source p.1 p.2
  addFallback index source e

end Building

/-- Make the graph of a description and find its root. -/
def Description.construct (d : Description) (root : Option String) : Building Nat := do
  let index ← Building.allocate [] d.nodes
  forM d.nodes (Building.fill index)
  let id := root.getD d.root
  Building.resolve index id (.fault (.unknownRoot id))

section Edges

variable {ν : Type}

def Key.edge (target : ν) (peek : Bool) : Key → Edge ν
  | .code c => ⟨target, some (.code c), true⟩
  | .bytes bs => ⟨target, some (.bytes bs), peek⟩

theorem EdgeEntry.edges_of_keys {x : EdgeEntry} {keys : List Key} {stays : Bool}
    (h : x.keys = .ok (keys, stays)) (t : ν) : x.edges t = .ok (keys.map (·.edge t x.peek)) := by
  have hedges : x.edges t = .ok (keys.map fun k => ⟨t, some k, stays⟩) := by
    rw [EdgeEntry.edges, h]
    rfl
  obtain ⟨⟨form, hform, hempty, hpeek⟩, -⟩ := edges_eq_ok_iff.mp hedges
  rw [keys_of_forms hform, isCode_and_peek_eq_false hpeek, hempty] at h
  obtain ⟨rfl, rfl⟩ := Prod.mk.inj (Except.ok.inj h)
  rw [hedges]
  cases form <;> simp [KeyForm.keys, KeyForm.isCode, Key.edge]

namespace Node

theorem connect_nil (v : Node ν) : v.connect [] = v := by simp [connect]

theorem connect_connect (v : Node ν) (es fs : List (Edge ν)) :
    (v.connect es).connect fs = v.connect (es ++ fs) := by simp [connect]

end Node
end Edges

namespace Building

variable {α β : Type}

/-- What a construction comes to on an arena. Of the arena left behind by a fault only the size is
looked at. -/
def look (m : Building α) (arena : Arena) : Except (Obstacle × Nat) (α × Arena) :=
  match m arena with
  | .ok a arena => .ok (a, arena)
  | .error o arena => .error (o, arena.length)

def stopping (size : Nat) (x : Except LinkFault α) : Except (Obstacle × Nat) α :=
  x.mapError fun f => (.fault f, size)

theorem look_eq_ok_iff {m : Building α} {arena arena' : Arena} {a : α} :
    look m arena = .ok (a, arena') ↔ m arena = .ok a arena' := by
  rw [look]
  cases m arena <;> simp

theorem look_eq_error_iff {m : Building α} {arena : Arena} {o : Obstacle} {size : Nat} :
    look m arena = .error (o, size) ↔
      ∃ arena', m arena = .error o arena' ∧ arena'.length = size := by
  rw [look]
  cases m arena <;> simp

theorem look_pure (a : α) (arena : Arena) : look (pure a) arena = .ok (a, arena) := rfl

theorem look_throw (o : Obstacle) (arena : Arena) :
    look (throw o : Building α) arena = .error (o, arena.length) := rfl

theorem look_bind (m : Building α) (k : α → Building β) (arena : Arena) :
    look (m >>= k) arena = (look m arena).bind fun p => look (k p.1) p.2 := by
  simp only [look, bind, EStateM.bind]
  cases m arena <;> rfl

theorem look_bind_of_ok {m : Building α} {arena arena' : Arena} {a : α}
    (h : look m arena = .ok (a, arena')) (k : α → Building β) :
    look (m >>= k) arena = look (k a) arena' := by
  rw [look_bind, h]
  rfl

theorem look_bind_of_error {m : Building α} {arena : Arena} {o : Obstacle × Nat}
    (h : look m arena = .error o) (k : α → Building β) : look (m >>= k) arena = .error o := by
  rw [look_bind, h]
  rfl

theorem look_get (arena : Arena) : look get arena = .ok (arena, arena) := rfl

theorem look_make (name : String) (arena : Arena) :
    look (make name) arena = .ok (arena.length, arena ++ [.bare name]) := rfl

theorem look_resolve_some {index : Index} {id : String} {i : Nat}
    (h : index.node? id = some i) (missing : Obstacle) (arena : Arena) :
    look (resolve index id missing) arena = .ok (i, arena) := by
  rw [resolve, h, look_pure]

theorem look_resolve_none {index : Index} {id : String}
    (h : index.node? id = none) (missing : Obstacle) (arena : Arena) :
    look (resolve index id missing) arena = .error (missing, arena.length) := by
  rw [resolve, h, look_throw]

section Focus

-- The node at work stands between those before it and those after it.
variable (pre post : Arena) {v w : Node Nat}

theorem look_change {step : Node Nat → Except BuildFault (Node Nat)} (h : step v = .ok w) :
    look (change pre.length step) (pre ++ v :: post) = .ok ((), pre ++ w :: post) := by
  have hnode : (pre ++ v :: post)[pre.length]? = some v := by simp
  have hset : (pre ++ v :: post).set pre.length w = pre ++ w :: post := by simp
  have hstep : (pre ++ v :: post)[pre.length]?.mapM step = .ok (some w) := by
    rw [hnode, Option.mapM_some, h]
    rfl
  rw [← hset, change, look_bind_of_ok (look_get _), hstep]
  rfl

theorem look_addKey (target : Nat) (peek : Bool) (k : Key) :
    look (addKey pre.length target peek k) (pre ++ v :: post) =
      .ok ((), pre ++ v.connect [k.edge target peek] :: post) := by
  cases k <;> exact look_change pre post rfl

theorem look_addKeys (target : Nat) (peek : Bool) (keys : List Key) :
    look (forM keys (addKey pre.length target peek)) (pre ++ v :: post) =
      .ok ((), pre ++ v.connect (keys.map (·.edge target peek)) :: post) := by
  induction keys generalizing v with
  | nil => rw [List.forM_nil, look_pure, List.map_nil, Node.connect_nil]
  | cons k keys ih =>
    rw [List.forM_cons, look_bind_of_ok (look_addKey pre post target peek k), ih,
      Node.connect_connect]
    rfl

variable (index : Index)

theorem look_addEdge (holder : String) (x : EdgeEntry) (i : Nat) :
    look (addEdge index holder pre.length x i) (pre ++ v :: post) =
      stopping (pre ++ v :: post).length
        ((x.link index.node? holder i).map fun es => ((), pre ++ v.connect es :: post)) := by
  rw [addEdge]
  cases ht : index.node? x.target with
  | none =>
    rw [EdgeEntry.link_of_none ht]
    exact look_bind_of_error (look_resolve_none ht _ _) _
  | some t =>
    rw [look_bind_of_ok (look_resolve_some ht _ _), EdgeEntry.link_of_some ht]
    cases hk : x.keys with
    | error f =>
      rw [EdgeEntry.edges, hk]
      rfl
    | ok given =>
      obtain ⟨keys, stays⟩ := given
      rw [x.edges_of_keys hk]
      exact look_addKeys pre post t x.peek keys

/-- The edges that an edge entry adds, where `p` is the entry with its place in the list. -/
theorem look_addEdges (holder : String) (places : List (EdgeEntry × Nat)) :
    look (forM places fun p => addEdge index holder pre.length p.1 p.2) (pre ++ v :: post) =
      stopping (pre ++ v :: post).length
        ((places.mapM fun p => EdgeEntry.link index.node? holder p.1 p.2).map
          fun ess => ((), pre ++ v.connect ess.flatten :: post)) := by
  induction places generalizing v with
  | nil =>
    rw [List.forM_nil, List.mapM_nil]
    conv_lhs => rw [← v.connect_nil]
    rfl
  | cons p places ih =>
    rw [List.forM_cons, List.mapM_cons, look_bind, look_addEdge]
    cases p.1.link index.node? holder p.2 with
    | error f => rfl
    | ok es =>
      refine (ih (v := v.connect es)).trans ?_
      simp only [Node.connect_connect, List.length_append, List.length_cons]
      cases places.mapM fun p => EdgeEntry.link index.node? holder p.1 p.2 <;> rfl

theorem look_setFallback {step : Nat → BuildStep Nat} {stays : Bool}
    (hstep : ∀ (w : Node Nat) t, w.extend (step t) = w.setFallback ⟨t, stays⟩)
    (hv : v.fallback = none) (id : String) :
    look (do
        let target ← resolve index id (.fault (.unknownFallback id))
        change pre.length (·.extend (step target))) (pre ++ v :: post) =
      stopping (pre ++ v :: post).length ((NodeEntry.link.linkFallback index.node? id stays).map
        fun b => ((), pre ++ { v with fallback := b } :: post)) := by
  rw [NodeEntry.link.linkFallback]
  cases ht : index.node? id with
  | none => exact look_bind_of_error (look_resolve_none ht _ _) _
  | some t =>
    have hset : v.extend (step t) = .ok { v with fallback := some ⟨t, stays⟩ } := by
      rw [hstep, Node.setFallback, hv]
      rfl
    rw [look_bind_of_ok (look_resolve_some ht _ _)]
    exact look_change pre post hset

theorem look_addFallback (e : NodeEntry) (hv : v.fallback = none) :
    look (addFallback index pre.length e) (pre ++ v :: post) =
      stopping (pre ++ v :: post).length ((e.fallback index.node?).map
        fun b => ((), pre ++ { v with fallback := b } :: post)) := by
  rw [addFallback, NodeEntry.fallback]
  cases e.otherwise with
  | some id =>
    cases e.skipTo with
    | some _ => rfl
    | none => exact look_setFallback pre post index (fun _ _ => rfl) hv id
  | none =>
    cases e.skipTo with
    | some id => exact look_setFallback pre post index (fun _ _ => rfl) hv id
    | none =>
      have hsame : ({ v with fallback := none } : Node Nat) = v := by rw [← hv]
      rw [look_pure]
      conv_lhs => rw [← hsame]
      rfl

/-- Filling a bare node leaves it as linking has it, and the other nodes as they are. -/
theorem look_fill {e : NodeEntry} (he : index.node? e.id = some pre.length) :
    look (fill index e) (pre ++ .bare e.shownName :: post) =
      stopping (pre.length + (post.length + 1))
        ((e.link index.node?).map fun w => ((), pre ++ w :: post)) := by
  have hsize (w : Node Nat) : (pre ++ w :: post).length = pre.length + (post.length + 1) := by simp
  have hedges := look_addEdges pre post (v := .bare e.shownName) index e.id e.edges.zipIdx
  rw [← NodeEntry.edgeLists, hsize] at hedges
  rw [fill, look_bind_of_ok (look_resolve_some he _ _), look_bind, hedges, NodeEntry.link_eq]
  cases e.edgeLists index.node? with
  | error f => rfl
  | ok ess =>
    refine (look_addFallback pre post index e rfl).trans ?_
    rw [hsize]
    cases e.fallback index.node? <;> rfl

end Focus

/-- The nodes are filled in order: those before an entry are done, those after it still bare. -/
theorem look_fillAll {index : Index} {entries : List NodeEntry} {done : Arena}
    (hindex : ∀ i (h : i < entries.length),
      index.node? entries[i].id = some (done.length + i)) :
    look (forM entries (fill index)) (done ++ entries.map fun e => .bare e.shownName) =
      stopping (done.length + entries.length)
        ((entries.mapM (NodeEntry.link index.node?)).map fun ws => ((), done ++ ws)) := by
  induction entries generalizing done with
  | nil => rw [List.forM_nil, List.mapM_nil]; rfl
  | cons e entries ih =>
    have hhead : index.node? e.id = some done.length := hindex 0 (by simp)
    rw [List.forM_cons, List.mapM_cons, List.map_cons, look_bind, look_fill done _ index hhead,
      List.length_map, List.length_cons]
    cases e.link index.node? with
    | error f => rfl
    | ok w =>
      -- For the entries that are left the node just filled is one of those before them.
      have htail : ∀ i (h : i < entries.length),
          index.node? entries[i].id = some ((done ++ [w]).length + i) := by
        intro i h
        have hnext := hindex (i + 1) (by simpa using h)
        rw [List.length_append, List.length_singleton, Nat.add_assoc, Nat.add_comm 1 i]
        exact hnext
      have hsize : (done ++ [w]).length + entries.length = done.length + (entries.length + 1) := by
        simp; omega
      have hrest := ih htail
      rw [hsize] at hrest
      simp only [List.append_assoc, List.singleton_append] at hrest
      refine hrest.trans ?_
      cases entries.mapM (NodeEntry.link index.node?) <;> rfl

/-- The numbers that entries get when the first of them gets number `k`. -/
def Index.ofEntries (k : Nat) (entries : List NodeEntry) : Index :=
  (entries.zipIdx k).map fun p => (p.1.id, p.2)

theorem Index.ofEntries_cons (k : Nat) (e : NodeEntry) (entries : List NodeEntry) :
    Index.ofEntries k (e :: entries) = (e.id, k) :: Index.ofEntries (k + 1) entries := rfl

theorem Index.isSome_node?_concat (index : Index) (id : String) (i : Nat) (other : String) :
    (Index.node? (index ++ [(id, i)]) other).isSome ↔ other = id ∨ (index.node? other).isSome := by
  rw [Index.node?, List.lookup_append, Option.isSome_or, Bool.or_eq_true, or_comm]
  refine or_congr ?_ Iff.rfl
  by_cases h : other = id
  · simp [h]
  · have hb : (other == id) = false := beq_false_of_ne h
    simp [List.lookup_cons, h, hb]

theorem Index.node?_ofEntries (k : Nat) (entries : List NodeEntry) (id : String) :
    (Index.ofEntries k entries).node? id = (entries.findIdx? (·.id == id)).map (· + k) := by
  induction entries generalizing k with
  | nil => rfl
  | cons e entries ih =>
    rw [ofEntries_cons, node?, List.lookup_cons, List.findIdx?_cons]
    by_cases h : id = e.id
    · simp [h]
    · have hb : (id == e.id) = false := beq_false_of_ne h
      have hb' : (e.id == id) = false := beq_false_of_ne (Ne.symm h)
      have hrest := ih (k + 1)
      rw [node?] at hrest
      simp only [hb, hb', hrest, Bool.false_eq_true, if_false, Option.map_map]
      exact congrArg (Option.map · _) (funext fun i => by simp only [Function.comp_apply]; omega)

/-- In the first pass the node of an id that repeats an earlier one is still made. -/
theorem look_allocate {index : Index} {arena : Arena} {seen : List String}
    (hseen : ∀ id, id ∈ seen ↔ (index.node? id).isSome) (hsize : seen.length = arena.length)
    (entries : List NodeEntry) :
    look (allocate index entries) arena =
      match firstRepeated? seen (entries.map (·.id)) with
      | some (id, i) => .error (.fault (.repeatedId id i), i + 1)
      | none => .ok (index ++ Index.ofEntries arena.length entries,
          arena ++ entries.map fun e => .bare e.shownName) := by
  -- `seen` holds the ids of the index, and both grow with the arena.
  induction entries generalizing index arena seen with
  | nil => simp [allocate, firstRepeated?, look_pure, Index.ofEntries]
  | cons e entries ih =>
    rw [allocate, look_bind_of_ok (look_make _ _), List.map_cons, firstRepeated?]
    by_cases h : e.id ∈ seen
    · rw [if_pos h, if_pos ((hseen e.id).mp h), look_throw, List.length_append, hsize]
      rfl
    · have hseen' : ∀ id, id ∈ e.id :: seen ↔
          (Index.node? (index ++ [(e.id, arena.length)]) id).isSome := by
        intro id
        rw [List.mem_cons, hseen, Index.isSome_node?_concat]
      have hsize' : (e.id :: seen).length = (arena ++ [Node.bare e.shownName]).length := by
        simp [hsize]
      rw [if_neg h, if_neg fun hs => h ((hseen e.id).mpr hs), ih hseen' hsize']
      simp [Index.ofEntries_cons]

end Building

namespace Description

variable (d : Description)

theorem node?_ofEntries :
    (Building.Index.ofEntries 0 d.nodes).node? = fun id => (d.find? id).map Fin.val := by
  funext id
  rw [Building.Index.node?_ofEntries, List.findIdx?_eq_map_findFinIdx?_val, find?]
  cases d.nodes.findFinIdx? (·.id == id) <;> rfl

theorem nodesMade_of_mapM_eq_error {f : LinkFault}
    (h : d.nodes.mapM (NodeEntry.link d.find?) = .error f) :
    f.nodesMade d.nodes.length = d.nodes.length := by
  rw [← fault?_eq_some_iff, fault?_mapM, List.findSome?_eq_some_iff] at h
  obtain ⟨_, e, _, _, hf, _⟩ := h
  rw [e.fault?_link d.isSome_find?] at hf
  exact NodeEntry.nodesMade_of_mem_faults (List.mem_of_head? hf) _

theorem look_allocateAll :
    Building.look (Building.allocate [] d.nodes) [] =
      match firstRepeated? [] d.ids with
      | some (id, i) => .error (.fault (.repeatedId id i), i + 1)
      | none =>
        .ok (Building.Index.ofEntries 0 d.nodes, d.nodes.map fun e => .bare e.shownName) := by
  have hempty : ∀ id, id ∈ ([] : List String) ↔ (Building.Index.node? [] id).isSome := by
    simp [Building.Index.node?]
  exact Building.look_allocate hempty (rfl : _ = ([] : Arena).length) d.nodes

theorem look_fillNodes {d : Description} (h : d.ids.Nodup) :
    Building.look (forM d.nodes (Building.fill (.ofEntries 0 d.nodes)))
        (d.nodes.map fun e => .bare e.shownName) =
      Building.stopping d.nodes.length ((d.nodes.mapM (NodeEntry.link d.find?)).map
        fun nodes => ((), nodes.map (·.map Fin.val))) := by
  have hindex : ∀ i (h : i < d.nodes.length),
      (Building.Index.ofEntries 0 d.nodes).node? d.nodes[i].id =
        some (([] : Arena).length + i) := by
    intro i hi
    have hfound := find?_id h ⟨i, hi⟩
    rw [node?_ofEntries]
    simpa using congrArg (Option.map Fin.val) hfound
  have hnumbers : d.nodes.mapM (NodeEntry.link (Building.Index.ofEntries 0 d.nodes).node?) =
      (d.nodes.mapM (NodeEntry.link d.find?)).map (·.map (·.map Fin.val)) := by
    rw [node?_ofEntries, ← mapM_map_result]
    exact mapM_congr fun e _ => e.link_map Fin.val d.find?
  have hfill := Building.look_fillAll hindex
  rw [hnumbers] at hfill
  simp only [List.nil_append, List.length_nil, Nat.zero_add] at hfill
  rw [hfill]
  cases d.nodes.mapM (NodeEntry.link d.find?) <;> rfl

/-- The construction of a description comes to the graph and the root that linking gives. It stops
where linking finds a fault, with the number of nodes that is told for that fault. -/
theorem look_construct (root : Option String) :
    Building.look (d.construct root) [] =
      ((d.linked root).map fun p => (p.2.val, p.1.map (·.map Fin.val))).mapError
        fun f => (.fault f, f.nodesMade d.nodes.length) := by
  have hallocate := d.look_allocateAll
  rw [construct, linked]
  cases hr : firstRepeated? [] d.ids with
  | some repeated =>
    rw [hr] at hallocate
    exact Building.look_bind_of_error hallocate _
  | none =>
    have hdistinct : d.ids.Nodup := (firstRepeated?_eq_none_iff.mp hr).1
    rw [hr] at hallocate
    rw [Building.look_bind_of_ok hallocate, Building.look_bind, look_fillNodes hdistinct]
    cases hnodes : d.nodes.mapM (NodeEntry.link d.find?) with
    | error f =>
      refine congrArg (fun size => Except.error (Obstacle.fault f, size)) ?_
      exact (d.nodesMade_of_mapM_eq_error hnodes).symm
    | ok nodes =>
      have hroot := congrFun d.node?_ofEntries (root.getD d.root)
      rw [linkRoot]
      cases hv : d.find? (root.getD d.root) with
      | none =>
        rw [hv] at hroot
        refine (Building.look_resolve_none hroot _ _).trans ?_
        rw [List.length_map, length_of_mapM_eq_ok _ hnodes]
        rfl
      | some v =>
        rw [hv] at hroot
        exact Building.look_resolve_some hroot _ _

theorem construct_of_link_eq_ok {root : Option String} {g : Graph d.nodes.length}
    {v : Fin d.nodes.length} (h : d.link root = .ok (g, v)) :
    d.construct root [] = .ok v.val (g.nodes.toList.map (·.map Fin.val)) := by
  rw [← Building.look_eq_ok_iff, look_construct, ← map_toList_link, h]
  rfl

theorem construct_of_link_eq_error {root : Option String} {f : LinkFault}
    (h : d.link root = .error f) :
    ∃ arena, d.construct root [] = .error (.fault f) arena ∧
      arena.length = f.nodesMade d.nodes.length := by
  rw [← Building.look_eq_error_iff, look_construct, ← map_toList_link, h]
  rfl

end Description
end StateDiagram
