import StateDiagram.Proofs.Blocks
import StateDiagram.Proofs.Keyless
import StateDiagram.Proofs.Naming

/-! A renderer that is used again. Drawing is written here as a program that clears the table of
identifiers, asks for all nodes of the walk, and then asks for the ends of each statement when it
comes to it, which would name a node that has no name yet. It never comes to such a node, so it is
the drawing from a table that is made once (`Renderer.performs`), and nothing of what a renderer did
before shows in what it draws next (`Renderer.draw_after_session`). -/
namespace StateDiagram

variable {n : Nat}

/-- A program that names nodes when it asks for them. Names given stay, also if it fails. -/
abbrev Naming (n : Nat) := EStateM KeylessEdge (Identifiers (Fin n))

namespace Naming

def ask (g : Graph n) (v : Fin n) : Naming n String := do
  let ids ← get
  set (ids.assign v (g.name v))
  return ids.idOf v (g.name v)

/-- The statements of `v`, called `source`, for the groups of one kind. The target of a group is
asked for once its keys are known to be there. -/
def groupStatements (g : Graph n) (source : String) (v : Fin n) (stays : Bool) :
    Naming n (List Statement) := do
  let parts ← ((g.node v).groups stays).mapM fun group => do
    let shapes ← MonadExcept.ofExcept (g.shapes v group)
    let target ← ask g group.target
    return shapes.statements source target (.ofStays stays)
  return parts.flatten

def fallbackStatements (g : Graph n) (source : String) (v : Fin n) : Naming n (List Statement) :=
  match (g.node v).fallback with
  | none => return []
  | some b => do
    let target ← ask g b.target
    return [⟨source, target, Label.fallback b.stays, (EdgeKind.ofStays b.stays).color⟩]

def block (g : Graph n) (v : Fin n) : Naming n Block := do
  let source ← ask g v
  let advancing ← groupStatements g source v false
  let staying ← groupStatements g source v true
  let fallback ← fallbackStatements g source v
  return ⟨source, advancing ++ staying ++ fallback⟩

/-- Forget all names, and name the nodes that can be reached in the order of the walk. -/
def nameAll (g : Graph n) (root : Fin n) : Naming n Unit := do
  set (Identifiers.empty : Identifiers (Fin n))
  forM (g.reachableFrom root) fun v => discard (ask g v)

def blocks (g : Graph n) (root : Fin n) : Naming n (List Block) := do
  nameAll g root
  (g.reachableFrom root).mapM (block g)

def draw (layout : Layout) (g : Graph n) (root : Fin n) : Naming n Document := do
  let blocks ← blocks g root
  return .ofStatements layout.attributes (blocks.flatMap (·.statements))

section Leaving

variable {α β : Type} {ids : Identifiers (Fin n)}

def leaving (ids : Identifiers (Fin n)) : Except KeylessEdge α →
    EStateM.Result KeylessEdge (Identifiers (Fin n)) α
  | .ok a => .ok a ids
  | .error e => .error e ids

theorem ofExcept_eq (x : Except KeylessEdge α) :
    (MonadExcept.ofExcept x : Naming n α) ids = leaving ids x := by
  cases x <;> rfl

theorem bind_eq {m : Naming n α} {x : Except KeylessEdge α} {k : α → Naming n β}
    {f : α → Except KeylessEdge β} (hm : m ids = leaving ids x)
    (hk : ∀ a, k a ids = leaving ids (f a)) : (m >>= k) ids = leaving ids (x >>= f) := by
  simp only [bind, EStateM.bind, hm]
  cases x with
  | error e => rfl
  | ok a => exact hk a

theorem mapM_eq {m : α → Naming n β} {f : α → Except KeylessEdge β} {xs : List α}
    (h : ∀ x ∈ xs, m x ids = leaving ids (f x)) : (xs.mapM m) ids = leaving ids (xs.mapM f) := by
  induction xs with
  | nil => rw [List.mapM_nil, List.mapM_nil]; rfl
  | cons x xs ih =>
    rw [List.mapM_cons, List.mapM_cons]
    exact bind_eq (h x List.mem_cons_self) fun y =>
      bind_eq (ih fun z hz => h z (List.mem_cons_of_mem x hz)) fun ys => rfl

theorem bind_of_ok {m : Naming n α} {a : α} (h : m ids = .ok a ids) (k : α → Naming n β) :
    (m >>= k) ids = k a ids := by
  simp only [bind, EStateM.bind, h]

end Leaving

section Known

variable {ids : Identifiers (Fin n)} {g : Graph n} {v : Fin n}

/-- Asking for a node that has a name gives the name and does nothing else. -/
theorem ask_eq (hv : (ids.find? v).isSome) : ask g v ids = .ok (ids.idOf v (g.name v)) ids := by
  have hask : ask g v ids = .ok (ids.idOf v (g.name v)) (ids.assign v (g.name v)) := rfl
  rw [hask, Identifiers.assign_of_isSome hv]

variable (hv : (ids.find? v).isSome) (hnext : ∀ w ∈ (g.node v).successors, (ids.find? w).isSome)

include hnext

theorem groupStatements_eq (stays : Bool) :
    groupStatements g (ids.idOf v (g.name v)) v stays ids =
      leaving ids (g.groupStatements (fun w => ids.idOf w (g.name w)) v stays) := by
  refine bind_eq (mapM_eq fun group hgroup => ?_) fun parts => rfl
  have htarget := hnext _ (Node.target_mem_of_mem_groups hgroup)
  exact bind_eq (ofExcept_eq _) fun shapes => bind_of_ok (ask_eq htarget) _

theorem fallbackStatements_eq :
    fallbackStatements g (ids.idOf v (g.name v)) v ids =
      .ok (g.fallbackStatements (fun w => ids.idOf w (g.name w)) v) ids := by
  rw [fallbackStatements, Graph.fallbackStatements]
  cases hb : (g.node v).fallback with
  | none => rfl
  | some b => exact bind_of_ok (ask_eq (hnext _ (Node.mem_successors.mpr (.inl ⟨b, hb, rfl⟩)))) _

include hv

/-- Where a node and all that it leads to have their names, its block is made from them, and no name
is given; nor is one if the block cannot be made. -/
theorem block_eq :
    block g v ids = leaving ids (g.block (fun w => ids.idOf w (g.name w)) v) := by
  refine (bind_of_ok (ask_eq hv) _).trans ?_
  refine bind_eq (groupStatements_eq hnext false) fun advancing => ?_
  refine bind_eq (groupStatements_eq hnext true) fun staying => ?_
  exact bind_of_ok (fallbackStatements_eq hnext) _

end Known

variable (g : Graph n) (root : Fin n)

theorem forM_ask_eq (vs : List (Fin n)) (ids : Identifiers (Fin n)) :
    (forM vs fun v => discard (ask g v)) ids =
      .ok ⟨⟩ (vs.foldl (fun ids v => ids.assign v (g.name v)) ids) := by
  induction vs generalizing ids with
  | nil => rfl
  | cons v vs ih => exact ih (ids.assign v (g.name v))

/-- Whatever the table was before, it then has the names of what can be reached. -/
theorem nameAll_eq (ids : Identifiers (Fin n)) :
    nameAll g root ids = .ok ⟨⟩ (g.identifiers root) :=
  forM_ask_eq g (g.reachableFrom root) .empty

variable {g root}

/-- What can be reached is closed under edges and fallbacks, so a block comes to no new node. -/
theorem block_identifiers_eq {v : Fin n} (hv : g.Reaches root v) :
    block g v (g.identifiers root) = leaving (g.identifiers root)
      (g.block (fun w => (g.identifiers root).idOf w (g.name w)) v) :=
  block_eq (g.isSome_find?_identifiers.mpr hv) fun _ hw =>
    g.isSome_find?_identifiers.mpr (.step hv hw)

theorem blocks_eq (ids : Identifiers (Fin n)) :
    blocks g root ids = leaving (g.identifiers root) (g.blocks root) := by
  have hblocks : ((g.reachableFrom root).mapM (block g)) (g.identifiers root) =
      leaving (g.identifiers root) (g.blocks root) :=
    mapM_eq fun v hv => block_identifiers_eq ((Graph.mem_reachableFrom_iff g root v).mp hv)
  have hrun : blocks g root ids =
      ((g.reachableFrom root).mapM (block g)) (g.identifiers root) := by
    simp only [blocks, bind, EStateM.bind, nameAll_eq]
  rw [hrun, hblocks]

theorem draw_eq (layout : Layout) (ids : Identifiers (Fin n)) :
    draw layout g root ids = leaving (g.identifiers root) (g.draw layout root) := by
  simp only [draw, bind, EStateM.bind, blocks_eq, Graph.draw]
  cases g.blocks root <;> rfl

end Naming

/-- What was done with a renderer since it was made, with the graphs as they were at the time. -/
inductive Session : Nat → Type
  | new {n : Nat} : Session n
  /-- A node was added to the graph. -/
  | grow {n : Nat} (s : Session n) : Session (n + 1)
  | id {n : Nat} (s : Session n) (g : Graph n) (v : Fin n) : Session n
  | blocks {n : Nat} (s : Session n) (g : Graph n) (root : Fin n) : Session n
  | draw {n : Nat} (s : Session n) (g : Graph n) (root : Fin n) : Session n

def Session.renderer (layout : Layout) {n : Nat} : Session n → Renderer n
  | new => .new layout
  | grow s => (s.renderer layout).grow
  | id s g v => ((s.renderer layout).id g v).2
  | blocks s g root => ((s.renderer layout).blocks g root).2
  | draw s g root => ((s.renderer layout).draw g root).2

theorem Session.layout_renderer (layout : Layout) (s : Session n) :
    (s.renderer layout).layout = layout := by
  induction s with
  | new => rfl
  | grow _ ih | id _ _ _ ih | blocks _ _ _ ih | draw _ _ _ ih => exact ih

namespace Renderer

/-- Run a program from the table of a renderer, which keeps the one it ends with. -/
def perform {α : Type} (r : Renderer n) (m : Naming n α) : Except KeylessEdge α × Renderer n :=
  match m r.ids with
  | .ok a ids => (.ok a, { r with ids })
  | .error e ids => (.error e, { r with ids })

theorem perform_of_leaving {α : Type} {r : Renderer n} {m : Naming n α} {ids : Identifiers (Fin n)}
    {x : Except KeylessEdge α} (h : m r.ids = Naming.leaving ids x) :
    r.perform m = (x, { r with ids }) := by
  rw [perform, h]
  cases x <;> rfl

/-- The renderer does what the programs do that name nodes when they ask for them. -/
structure Performs (r : Renderer n) (g : Graph n) : Prop where
  id : ∀ v, r.perform (Naming.ask g v) = (.ok (r.id g v).1, (r.id g v).2)
  blocks : ∀ root, r.perform (Naming.blocks g root) = r.blocks g root
  draw : ∀ root, r.perform (Naming.draw r.layout g root) = r.draw g root

theorem performs (r : Renderer n) (g : Graph n) : r.Performs g where
  id _ := rfl
  blocks _ := perform_of_leaving (Naming.blocks_eq r.ids)
  draw _ := perform_of_leaving (Naming.draw_eq r.layout r.ids)

theorem id_of_draw (r : Renderer n) {g : Graph n} {root v : Fin n} (hv : g.Reaches root v) :
    ((r.draw g root).2.id g v).2 = (r.draw g root).2 := by
  simp only [draw, id, Identifiers.assign_of_isSome (g.isSome_find?_identifiers.mpr hv)]

theorem eq_ofStatements_of_draw {r : Renderer n} {g : Graph n} {root : Fin n} {document : Document}
    (h : (r.draw g root).1 = .ok document) :
    document = .ofStatements r.layout.attributes ((g.reachableFrom root).flatMap fun v =>
      (g.node v).reference (fun w => ((r.draw g root).2.id g w).1) v) := by
  obtain ⟨bs, hbs, rfl⟩ := Graph.draw_eq_ok_iff.mp h
  have hkeyed : ∀ v, g.Reaches root v → (g.node v).Keyed :=
    fun v hv => Graph.key_ne_none_of_blocks hbs hv
  rw [Graph.blocks_of_keyed hkeyed] at hbs
  rw [← Except.ok.inj hbs, List.flatMap_map]
  rfl

/-- Whatever was done with a renderer, it draws as a new one does, and it is then left with the
names of what can be reached, given in the order of the walk from an empty table, even if the
drawing failed. While blocks are made no node gets a name. Those in the document are the ones that
the renderer gives afterwards. -/
theorem draw_after_session (layout : Layout) (s : Session n) (g : Graph n) (root : Fin n) :
    let r := s.renderer layout
    let r' := (r.draw g root).2
    r.Performs g ∧ (r.draw g root).1 = ((Renderer.new layout).draw g root).1 ∧
      r'.ids = (g.reachableFrom root).foldl (fun ids v => ids.assign v (g.name v)) .empty ∧
      (∀ v, (r'.ids.find? v).isSome ↔ g.Reaches root v) ∧
      Naming.nameAll g root r.ids = .ok ⟨⟩ r'.ids ∧
      (∀ v, g.Reaches root v → Naming.block g v r'.ids =
        Naming.leaving r'.ids (g.block (fun w => (r'.id g w).1) v)) ∧
      ∀ document, (r.draw g root).1 = .ok document →
        document = .ofStatements layout.attributes ((g.reachableFrom root).flatMap fun v =>
          (g.node v).reference (fun w => (r'.id g w).1) v) ∧
        ∀ v, g.Reaches root v → (r'.id g v).2 = r' := by
  have hlayout := s.layout_renderer layout
  refine ⟨performs _ g, ?_, rfl, fun v => g.isSome_find?_identifiers, Naming.nameAll_eq g root _,
    fun v hv => Naming.block_identifiers_eq hv, fun document h => ⟨?_, fun v hv => id_of_draw _ hv⟩⟩
  · rw [draw, hlayout]
    rfl
  · rw [eq_ofStatements_of_draw h, hlayout]

end Renderer
end StateDiagram
