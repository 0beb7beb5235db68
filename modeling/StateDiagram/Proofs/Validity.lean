import StateDiagram.Proofs.Construction

/-! Which descriptions can be linked, and what is reported of one that cannot. All that is wrong
with a description is listed in the order of the passes: repeated ids, the entries one by one, the
root. Linking fails exactly if the list is not empty, and then with its head
(`Description.link_eq_error_iff`). -/
namespace StateDiagram

def Failure.lastNoted? (f : Failure) (key : String) : Option String := f.context.reverse.lookup key

namespace LinkFault

def unknownId? : LinkFault → Option String
  | unknownTarget _ _ id => some id
  | unknownFallback id => some id
  | unknownRoot id => some id
  | _ => none

def edge? : LinkFault → Option (String × Nat)
  | unknownTarget holder i _ => some (holder, i)
  | badKey holder i _ => some (holder, i)
  | _ => none

/-- The report of a fault tells its kind, the id that is not known and the edge. As an unknown id
is noted under the key under which the holder of an edge is, it comes before that. -/
structure Reported (f : LinkFault) : Prop where
  kind : f.failure.kind = if f.unknownId?.isSome then .nodeNotFound else .configInvalid
  unknownId : ∀ id, f.unknownId? = some id → f.failure.noted? "node" = some id
  holder : ∀ holder i, f.edge? = some (holder, i) → f.failure.lastNoted? "node" = some holder
  index : ∀ holder i, f.edge? = some (holder, i) → f.failure.lastNoted? "edge" = some (toString i)

theorem reported (f : LinkFault) : f.Reported := by
  cases f <;> constructor <;>
    simp [unknownId?, edge?, failure, operation, Failure.noted?, Failure.lastNoted?,
      Failure.noting, Failure.during, Failure.new, Failure.configInvalid, Failure.nodeNotFound,
      Failure.calledKey, List.lookup_cons]

end LinkFault

theorem firstRepeated?_eq_head? {seen before : List String} (hseen : ∀ id, id ∈ seen ↔ id ∈ before)
    (hsize : seen.length = before.length) (ids : List String) :
    firstRepeated? seen ids =
      ((ids.zipIdx before.length).filter
        fun p => ((before ++ ids).take p.2).contains p.1).head? := by
  -- Ids move from the list to `before`, so `before ++ ids` and all positions stay the same.
  induction ids generalizing seen before with
  | nil => rfl
  | cons id ids ih =>
    have hhere : ((before ++ id :: ids).take before.length).contains id = decide (id ∈ seen) := by
      rw [List.take_left, Bool.eq_iff_iff]
      simp [hseen]
    rw [firstRepeated?, List.zipIdx_cons, List.filter_cons]
    simp only [hhere, decide_eq_true_eq]
    by_cases h : id ∈ seen
    · rw [if_pos h, if_pos h, hsize]
      rfl
    · have hseen' : ∀ other, other ∈ id :: seen ↔ other ∈ before ++ [id] := by
        simp [hseen, or_comm]
      have hsize' : (id :: seen).length = (before ++ [id]).length := by simp [hsize]
      rw [if_neg h, if_neg h, ih hseen' hsize', List.append_assoc, List.length_append]
      rfl

namespace Description

variable (d : Description) (root : Option String)

/-- The ids that repeat an earlier one, with their positions. -/
def repeatedIds : List (String × Nat) :=
  d.ids.zipIdx.filter fun p => (d.ids.take p.2).contains p.1

/-- All that is wrong with a description, in the order in which it is looked for. -/
def faults : List LinkFault :=
  (d.repeatedIds.map fun p => LinkFault.repeatedId p.1 p.2) ++
    d.nodes.flatMap (NodeEntry.faults d.ids) ++
    if d.ids.contains (root.getD d.root) then [] else [.unknownRoot (root.getD d.root)]

/-- No id stands for two nodes, and everything that is named is there. -/
structure Valid : Prop where
  distinct : d.ids.Nodup
  entry : ∀ e ∈ d.nodes, e.Valid d.ids
  root : root.getD d.root ∈ d.ids

theorem firstRepeated?_ids : firstRepeated? [] d.ids = d.repeatedIds.head? :=
  firstRepeated?_eq_head? (by simp) (rfl : _ = ([] : List String).length) d.ids

theorem repeatedIds_eq_nil_iff : d.repeatedIds = [] ↔ d.ids.Nodup := by
  rw [← List.head?_eq_none_iff, ← firstRepeated?_ids, firstRepeated?_eq_none_iff]
  simp

theorem faults_eq_nil_iff : d.faults root = [] ↔ d.Valid root := by
  have hroot : ((if d.ids.contains (root.getD d.root) then []
      else [LinkFault.unknownRoot (root.getD d.root)]) = []) ↔ root.getD d.root ∈ d.ids := by
    simp
  simp only [faults, List.append_eq_nil_iff, List.map_eq_nil_iff, repeatedIds_eq_nil_iff,
    List.flatMap_eq_nil_iff, NodeEntry.faults_eq_nil_iff, hroot]
  constructor
  · rintro ⟨⟨hdistinct, hentry⟩, hroot⟩
    exact ⟨hdistinct, hentry, hroot⟩
  · intro h
    exact ⟨⟨h.distinct, h.entry⟩, h.root⟩

theorem fault?_linkRoot :
    fault? (d.linkRoot root) = (if d.ids.contains (root.getD d.root) then []
      else [LinkFault.unknownRoot (root.getD d.root)]).head? := by
  rw [linkRoot, ← isSome_find?]
  cases d.find? (root.getD d.root) <;> rfl

theorem fault?_mapM_link :
    fault? (d.nodes.mapM (NodeEntry.link d.find?)) =
      (d.nodes.flatMap (NodeEntry.faults d.ids)).head? := by
  rw [fault?_mapM, List.head?_flatMap]
  simp only [NodeEntry.fault?_link d.isSome_find?]

theorem fault?_link : fault? (d.link root) = (d.faults root).head? := by
  have hrest (nodes : List (Node (Fin d.nodes.length))) : fault? (do
      let v ← d.linkRoot root
      return (nodes, v)) = fault? (d.linkRoot root) :=
    fault?_bind_pure _ _
  rw [← fault?_map (d.link root), map_toList_link, linked, faults, firstRepeated?_ids,
    List.head?_append, List.head?_append, List.head?_map, ← fault?_linkRoot, ← fault?_mapM_link]
  cases d.repeatedIds.head? with
  | some p => rfl
  | none => exact fault?_bind hrest

theorem link_eq_error_iff (f : LinkFault) :
    d.link root = .error f ↔ (d.faults root).head? = some f := by
  rw [← fault?_eq_some_iff, fault?_link]

theorem exists_link_eq_ok_iff : (∃ linked, d.link root = .ok linked) ↔ d.Valid root := by
  rw [← fault?_eq_none_iff, fault?_link, List.head?_eq_none_iff, faults_eq_nil_iff]

variable {d root} {f : LinkFault}

theorem mem_faults (h : f ∈ d.faults root) :
    (∃ p ∈ d.repeatedIds, f = .repeatedId p.1 p.2) ∨ (∃ e ∈ d.nodes, f ∈ e.faults d.ids) ∨
      root.getD d.root ∉ d.ids ∧ f = .unknownRoot (root.getD d.root) := by
  rcases List.mem_append.mp h with h | h
  · rcases List.mem_append.mp h with h | h
    · obtain ⟨p, hp, rfl⟩ := List.mem_map.mp h
      exact .inl ⟨p, hp, rfl⟩
    · exact .inr (.inl (List.mem_flatMap.mp h))
  · by_cases hroot : root.getD d.root ∈ d.ids <;> simp [hroot] at h
    exact .inr (.inr ⟨hroot, h⟩)

/-- A fault is there where it is told to be: the unknown id is that of no entry, and the edge is an
edge of its holder. -/
structure Exhibits (d : Description) (f : LinkFault) : Prop where
  unknownId : ∀ id, f.unknownId? = some id → id ∉ d.ids
  edge : ∀ holder i, f.edge? = some (holder, i) → ∃ e ∈ d.nodes, e.id = holder ∧
    ∃ x, e.edges[i]? = some x ∧ ¬(x.target ∈ d.ids ∧ x.WellKeyed)

theorem Exhibits.of_edge {e : NodeEntry} {x : EdgeEntry} {i : Nat} (he : e ∈ d.nodes)
    (hx : e.edges[i]? = some x) (hwrong : ¬(x.target ∈ d.ids ∧ x.WellKeyed))
    (hedge : f.edge? = some (e.id, i)) (hid : ∀ id, f.unknownId? = some id → id ∉ d.ids) :
    d.Exhibits f where
  unknownId := hid
  edge holder j hplace := by
    rw [hedge] at hplace
    cases hplace
    exact ⟨e, he, rfl, x, hx, hwrong⟩

theorem Exhibits.of_edge?_eq_none (hedge : f.edge? = none)
    (hid : ∀ id, f.unknownId? = some id → id ∉ d.ids) : d.Exhibits f where
  unknownId := hid
  edge holder i hplace := by
    rw [hedge] at hplace
    cases hplace

theorem exhibits_of_mem_faults (h : f ∈ d.faults root) : d.Exhibits f := by
  obtain ⟨p, _, rfl⟩ | ⟨e, he, h⟩ | ⟨hroot, rfl⟩ := mem_faults h
  · exact .of_edge?_eq_none rfl nofun
  · rcases List.mem_append.mp h with h | h
    · obtain ⟨x, i, hx, ⟨htarget, rfl⟩ | ⟨k, hk, rfl⟩⟩ := NodeEntry.mem_edgeFaults h
      · refine .of_edge he hx (fun hv => htarget hv.1) rfl ?_
        rintro _ ⟨⟩
        exact htarget
      · have hkey : ¬x.WellKeyed := by
          rw [← EdgeEntry.keyFaults_eq_nil_iff]
          exact List.ne_nil_of_mem hk
        exact .of_edge he hx (fun hv => hkey hv.2) rfl nofun
    · obtain rfl | ⟨id, _, hid, rfl⟩ := NodeEntry.mem_fallbackFaults h
      · exact .of_edge?_eq_none rfl nofun
      · refine .of_edge?_eq_none rfl ?_
        rintro _ ⟨⟩
        exact hid
  · refine .of_edge?_eq_none rfl ?_
    rintro _ ⟨⟩
    exact hroot

/-- How many nodes are made: those up to the first repeated id, that one included, or all. -/
def madeCount (d : Description) : Nat := (d.repeatedIds.head?.map (·.2 + 1)).getD d.nodes.length

theorem nodesMade_of_head? (h : (d.faults root).head? = some f) :
    f.nodesMade d.nodes.length = d.madeCount := by
  rw [madeCount]
  cases hr : d.repeatedIds with
  | cons p ps =>
    rw [faults, hr] at h
    cases h
    rfl
  | nil =>
    obtain ⟨p, hp, _⟩ | ⟨e, _, h⟩ | ⟨_, rfl⟩ := mem_faults (List.mem_of_head? h)
    · rw [hr] at hp
      cases hp
    · exact NodeEntry.nodesMade_of_mem_faults h _
    · rfl

/-- A description can be linked exactly if it is valid. Of one that is not valid the first fault is
reported, and it is there as reported. The construction ends in the same way and leaves the nodes
of all entries, or on a repeated id those made until then. -/
theorem link_first_fault (d : Description) (root : Option String) :
    ((∃ g v, d.link root = .ok (g, v)) ↔ d.Valid root) ∧
      (∀ f, d.link root = .error f ↔ (d.faults root).head? = some f) ∧
      (∀ f, d.link root = .error f → d.Exhibits f ∧ f.Reported) ∧
      ∃ arena : Arena, arena.length = d.madeCount ∧
        (∀ g v, d.link root = .ok (g, v) → d.construct root [] = .ok v.val arena) ∧
        ∀ f, d.link root = .error f → d.construct root [] = .error (.fault f) arena := by
  refine ⟨by rw [← exists_link_eq_ok_iff]; simp, d.link_eq_error_iff root, ?_, ?_⟩
  · intro f hf
    have hhead := (d.link_eq_error_iff root f).mp hf
    exact ⟨exhibits_of_mem_faults (List.mem_of_head? hhead), f.reported⟩
  · cases hlink : d.link root with
    | error f =>
      have hhead := (d.link_eq_error_iff root f).mp hlink
      obtain ⟨arena, hrun, hsize⟩ := d.construct_of_link_eq_error hlink
      refine ⟨arena, hsize.trans (nodesMade_of_head? hhead), nofun, ?_⟩
      rintro _ ⟨⟩
      exact hrun
    | ok linked =>
      obtain ⟨g, v⟩ := linked
      have hvalid := (d.exists_link_eq_ok_iff root).mp ⟨_, hlink⟩
      have hsize : d.madeCount = d.nodes.length := by
        rw [madeCount, d.repeatedIds_eq_nil_iff.mpr hvalid.distinct]
        rfl
      refine ⟨g.nodes.toList.map (·.map Fin.val), by simp [hsize], ?_, nofun⟩
      rintro _ _ ⟨⟩
      exact d.construct_of_link_eq_ok hlink

example :
    faults ⟨"x", [⟨"a", none, [⟨"b", none, none, none, none, false⟩], some "a", some "c"⟩]⟩ none =
    [.unknownTarget "a" 0 "b", .badKey "a" 0 .notExactlyOne, .twoFallbacks "a",
      .unknownFallback "c", .unknownRoot "x"] := by
  decide

end Description
end StateDiagram
