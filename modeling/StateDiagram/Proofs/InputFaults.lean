import StateDiagram.Proofs.Blocks
import StateDiagram.Proofs.Described
import StateDiagram.Proofs.Keyless
import StateDiagram.Request

/-! Whose fault a failure is. What is read from a file can be missing, unreadable or wrong, but no
file leads to a failure that lies with the program: no node refuses what a description adds to it,
and what has been built can be drawn (`Request.failure_lies_with_input`). -/
namespace StateDiagram

def Obstacle.failure : Obstacle → Failure
  | fault f => f.failure
  | lost id => (Failure.nodeNotFound id).during LinkFault.operation
  | refused f => f.failure

theorem LinkFault.kind_failure (f : LinkFault) :
    f.failure.kind = .configInvalid ∨ f.failure.kind = .nodeNotFound := by
  cases f <;> first | exact .inl rfl | exact .inr rfl

theorem ErrorKind.ofFile_cases (k : FileErrorKind) :
    ofFile k = .fileNotFound ∨ ofFile k = .permissionDenied ∨ ofFile k = .ioFailed := by
  cases k <;> simp [ofFile]

section Keys

variable {ν : Type}

theorem EdgeEntry.key_ne_none_of_mem_expansion {x : EdgeEntry} {t : ν} {e : Edge ν}
    (h : e ∈ x.expansion t) : e.key ≠ none := by
  obtain ⟨form, _, he⟩ := List.mem_flatMap.mp h
  obtain ⟨k, _, rfl⟩ := List.mem_map.mp he
  exact Option.some_ne_none k

theorem NodeEntry.keyed_of_link {find? : String → Option ν} {e : NodeEntry} {v : Node ν}
    (h : e.link find? = .ok v) : v.Keyed := by
  obtain ⟨ess, b, hess, _, rfl⟩ := link_eq_ok_iff.mp h
  obtain ⟨_, hall⟩ := edgeLists_eq_ok_iff.mp hess
  intro edge hedge
  obtain ⟨es, hes, hmem⟩ := List.mem_flatten.mp hedge
  obtain ⟨x, _, t, _, rfl⟩ := exists_of_forall₂_of_mem_right hall hes
  exact EdgeEntry.key_ne_none_of_mem_expansion hmem

end Keys

theorem Description.keyed_of_link {d : Description} {root : Option String}
    {g : Graph d.nodes.length} {v : Fin d.nodes.length} (h : d.link root = .ok (g, v))
    (w : Fin d.nodes.length) : (g.node w).Keyed :=
  NodeEntry.keyed_of_link ((link_eq_ok_iff.mp h).2.1 w)

/-- Without keyless edges there is nothing that keeps a graph from being drawn. -/
theorem Graph.exists_draw_of_keyed {n : Nat} {g : Graph n} {root : Fin n}
    (h : ∀ v, g.Reaches root v → (g.node v).Keyed) (layout : Layout) :
    ∃ document, g.draw layout root = .ok document := by
  rw [draw, blocks_of_keyed h]
  exact ⟨_, rfl⟩

theorem Renderer.exists_outcome_of_keyed {n : Nat} (r : Renderer n) {g : Graph n} {root : Fin n}
    (h : ∀ v, g.Reaches root v → (g.node v).Keyed) : ∃ text, r.outcome g root = .ok text := by
  obtain ⟨document, hd⟩ := Graph.exists_draw_of_keyed h r.layout
  rw [outcome, Renderer.draw, hd]
  exact ⟨_, rfl⟩

theorem Description.exists_outcome_of_link {d : Description} {root : Option String}
    {g : Graph d.nodes.length} {v : Fin d.nodes.length} (h : d.link root = .ok (g, v))
    (r : Renderer d.nodes.length) (u : Fin d.nodes.length) : ∃ text, r.outcome g u = .ok text :=
  r.exists_outcome_of_keyed fun w _ => keyed_of_link h w

theorem Description.kind_of_ofText_eq_error {read : Reader} {text : String} {f : Failure}
    (h : ofText read text = .error f) : f.kind = .deserializationFailed := by
  rw [ofText] at h
  cases hread : read text with
  | error fault => rw [hread] at h; cases h; rfl
  | ok d => rw [hread] at h; cases h

/-- A description is built up to a graph that can be drawn from its root in every layout, or a fault
of the description stops it. -/
theorem Description.construct_cases (d : Description) (root : Option String) :
    (∃ f arena, d.construct root [] = .error (.fault f) arena) ∨
      ∃ (g : Graph d.nodes.length) (v : Fin d.nodes.length),
        d.construct root [] = .ok v.val (g.nodes.toList.map (·.map Fin.val)) ∧
          ∀ r : Renderer d.nodes.length, ∃ text, r.outcome g v = .ok text := by
  cases hlink : d.link root with
  | error f =>
    obtain ⟨arena, hrun, _⟩ := d.construct_of_link_eq_error hlink
    exact .inl ⟨f, arena, hrun⟩
  | ok linked =>
    obtain ⟨g, v⟩ := linked
    exact .inr ⟨g, v, d.construct_of_link_eq_ok hlink, fun r => exists_outcome_of_link hlink r v⟩

namespace Request

def inputKinds : List ErrorKind :=
  [.fileNotFound, .permissionDenied, .ioFailed, .deserializationFailed, .configInvalid,
    .nodeNotFound]

theorem mem_inputKinds_of_unreadable (path : String) (e : FileError) :
    (RequestFault.unreadable path e).failure.kind ∈ inputKinds := by
  have hkind : (RequestFault.unreadable path e).failure.kind = .ofFile e.kind := rfl
  rw [hkind]
  rcases ErrorKind.ofFile_cases e.kind with h | h | h <;> rw [h] <;> decide

theorem mem_inputKinds_of_undescribed (path : String) {f : Failure}
    (hf : f.kind = .deserializationFailed) :
    (RequestFault.undescribed path f).failure.kind ∈ inputKinds := by
  have hkind : (RequestFault.undescribed path f).failure.kind = f.kind := rfl
  rw [hkind, hf]
  decide

theorem mem_inputKinds_of_unlinked (f : LinkFault) :
    (RequestFault.unlinked f).failure.kind ∈ inputKinds := by
  have hkind : (RequestFault.unlinked f).failure.kind = f.failure.kind := rfl
  rw [hkind]
  rcases f.kind_failure with h | h <;> rw [h] <;> decide

/-- There is a result, or a failure that lies with the input. -/
def Answered {α : Type} (x : Except RequestFault α) : Prop :=
  (∃ a, x = .ok a) ∨ ∃ f, x = .error f ∧ f.failure.kind ∈ inputKinds

theorem Answered.bind {α β : Type} {x : Except RequestFault α} {k : α → Except RequestFault β}
    (hx : Answered x) (hk : ∀ a, x = .ok a → Answered (k a)) : Answered (x >>= k) := by
  rcases hx with ⟨a, rfl⟩ | ⟨f, rfl, hf⟩
  · exact hk a rfl
  · exact .inr ⟨f, rfl, hf⟩

theorem Answered.map {α β : Type} {x : Except RequestFault α} (hx : Answered x) (k : α → β) :
    Answered (x.map k) := by
  rcases hx with ⟨a, rfl⟩ | ⟨f, rfl, hf⟩
  · exact .inl ⟨k a, rfl⟩
  · exact .inr ⟨f, rfl, hf⟩

theorem answered_mapError {α ε : Type} {x : Except ε α} {report : ε → RequestFault}
    (h : ∀ e, x = .error e → (report e).failure.kind ∈ inputKinds) :
    Answered (x.mapError report) := by
  cases x with
  | error e => exact .inr ⟨report e, rfl, h e rfl⟩
  | ok a => exact .inl ⟨a, rfl⟩

theorem answered_document {π : Type} [ToString π] (read : Description.Reader) (r : Request π)
    (input : Except FileError (List UInt8)) : Answered (r.document read input) := by
  refine (answered_mapError fun e _ => mem_inputKinds_of_unreadable (toString r.input) e).bind
    fun bytes _ => ?_
  cases ofUtf8? bytes with
  | none => exact .inr ⟨_, rfl, mem_inputKinds_of_unreadable (toString r.input) .notText⟩
  | some text =>
    refine Answered.bind (.inl ⟨text, rfl⟩) fun text _ => ?_
    refine (answered_mapError fun f hf => mem_inputKinds_of_undescribed (toString r.input)
      (Description.kind_of_ofText_eq_error hf)).bind fun d _ => ?_
    refine (answered_mapError fun f _ => mem_inputKinds_of_unlinked f).bind fun (g, v) hlink => ?_
    -- What has been linked has no keyless edge, so drawing is the one stage that never fails.
    have hkeyed (w : Fin d.nodes.length) : (g.node w).Keyed :=
      Description.keyed_of_link (mapError_eq_ok_iff.mp hlink) w
    have hdraw : ∃ document, g.draw r.layout v = .ok document :=
      Graph.exists_draw_of_keyed (fun w _ => hkeyed w) r.layout
    obtain ⟨document, hd⟩ := hdraw
    exact .inl ⟨document, mapError_eq_ok_iff.mpr hd⟩

end Request

/-- Building a description ends in a graph that can be drawn from its root in every layout, or in a
report of a wrong configuration or of an id that names no node. So a request, whatever reads the
description, in any file system and with any contents of it, ends in a document or in a failure of
one of the kinds for which the input answers. -/
theorem Request.failure_lies_with_input :
    (∀ (d : Description) (root : Option String),
      (∃ o arena, d.construct root [] = .error o arena ∧
          (o.failure.kind = .configInvalid ∨ o.failure.kind = .nodeNotFound)) ∨
        ∃ (g : Graph d.nodes.length) (v : Fin d.nodes.length),
          d.construct root [] = .ok v.val (g.nodes.toList.map (·.map Fin.val)) ∧
            ∀ r : Renderer d.nodes.length, ∃ text, r.outcome g v = .ok text) ∧
      ∀ {π σ : Type} [ToString π] (read : Description.Reader) (files : FileAccess π (StateM σ))
          (s : σ) (r : Request π),
        (∃ text, (r.run read files s).1 = .ok text) ∨
          ∃ f, (r.run read files s).1 = .error f ∧ f.failure.kind ∈
            [ErrorKind.fileNotFound, .permissionDenied, .ioFailed, .deserializationFailed,
              .configInvalid, .nodeNotFound] := by
  refine ⟨fun d root => ?_, fun {π σ} _ read files s r => ?_⟩
  · rcases d.construct_cases root with ⟨f, arena, hrun⟩ | hbuilt
    · exact .inl ⟨.fault f, arena, hrun, f.kind_failure⟩
    · exact .inr hbuilt
  · rw [r.run_eq]
    exact (r.answered_document read (files.read r.input s).1).map Document.render

end StateDiagram
