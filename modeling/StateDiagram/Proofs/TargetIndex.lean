import Mathlib
import StateDiagram.Proofs.Blocks

/-! Groups that are found through an index of their targets. The slot of an edge is taken from the
index before the groups grow, so the two must be kept in step. They are, whatever is pushed: no slot
is ever out of range, and the groups are the stable partition of the edges by target. From this the
edges of a node come to lie in one group each, whose keys are sorted by shape in one pass
(`IndexedGroups.stable_partition`). -/
namespace StateDiagram

/-- Groups of edges, and the places of their targets among them. -/
structure IndexedGroups (ν : Type) [BEq ν] [Hashable ν] where
  groups : List (EdgeGroup ν)
  index : Std.HashMap ν Nat

namespace IndexedGroups

variable {ν : Type} [DecidableEq ν] [Hashable ν]

def empty : IndexedGroups ν := ⟨[], ∅⟩

def targets (m : IndexedGroups ν) : List ν := m.groups.map (·.target)

/-- Add an edge at the slot of its target. A target that the index does not know gets the slot
after the last group. There is no result if no group is at the slot. -/
def push? (m : IndexedGroups ν) (e : Edge ν) : Option (IndexedGroups ν) :=
  let slot := m.index.getD e.target m.groups.length
  let index := m.index.insertIfNew e.target m.groups.length
  let groups := if slot = m.groups.length then m.groups ++ [⟨e.target, []⟩] else m.groups
  match groups[slot]? with
  | some g => some ⟨groups.set slot { g with edges := g.edges ++ [e] }, index⟩
  | none => none

def ofEdges? (edges : List (Edge ν)) : Option (IndexedGroups ν) := edges.foldlM push? empty

end IndexedGroups

structure SortedEdges (ν : Type) [BEq ν] [Hashable ν] where
  advancing : IndexedGroups ν
  staying : IndexedGroups ν
  fallback : Option (Fallback ν)

namespace SortedEdges

variable {ν : Type} [DecidableEq ν] [Hashable ν]

def bucket (s : SortedEdges ν) (stays : Bool) : IndexedGroups ν :=
  if stays then s.staying else s.advancing

def all (s : SortedEdges ν) : List (Edge ν) :=
  [false, true].flatMap fun stays => (s.bucket stays).groups.flatMap EdgeGroup.edges

def push? (s : SortedEdges ν) (e : Edge ν) : Option (SortedEdges ν) :=
  if e.stays then (s.staying.push? e).map fun m => { s with staying := m }
  else (s.advancing.push? e).map fun m => { s with advancing := m }

end SortedEdges

def Node.sort? {ν : Type} [DecidableEq ν] [Hashable ν] (v : Node ν) : Option (SortedEdges ν) :=
  v.edges.foldlM SortedEdges.push? ⟨.empty, .empty, v.fallback⟩

def KeyShapes.add (s : KeyShapes) : Key → KeyShapes
  | .code c => { s with codes := s.codes ++ [c] }
  | .bytes [b] => { s with singles := s.singles ++ [b] }
  | .bytes bs => { s with sequences := s.sequences ++ [bs] }

/-- Add the keys of edges to those sorted so far. An edge without a key ends it with its position,
where the first of the edges has position `i`. -/
def KeyShapes.addKeys {ν : Type} (s : KeyShapes) (i : Nat) : List (Edge ν) → Except Nat KeyShapes
  | [] => .ok s
  | e :: es =>
    match e.key with
    | none => .error i
    | some k => (s.add k).addKeys (i + 1) es

def EdgeGroup.split {ν : Type} (g : EdgeGroup ν) : Except Nat KeyShapes :=
  KeyShapes.addKeys ⟨[], [], []⟩ 0 g.edges

section Index

variable {ν : Type} [DecidableEq ν] [Hashable ν] {index : Std.HashMap ν Nat} {ts : List ν}

/-- The index gives the place of each target of a list, and knows no other. -/
def Indexes (index : Std.HashMap ν Nat) (ts : List ν) : Prop :=
  ∀ (t : ν) (i : Nat), index[t]? = some i ↔ ts[i]? = some t

namespace Indexes

theorem mem_iff (h : Indexes index ts) (t : ν) : t ∈ index ↔ t ∈ ts := by
  rw [Std.HashMap.mem_iff_isSome_getElem?, Option.isSome_iff_exists, List.mem_iff_getElem?]
  exact exists_congr fun i => h t i

theorem insertIfNew_of_mem (h : Indexes index ts) {t : ν} (ht : t ∈ ts) (slot : Nat) :
    Indexes (index.insertIfNew t slot) ts := by
  intro u i
  have hknown : t ∈ index := (h.mem_iff t).mpr ht
  simpa [Std.HashMap.getElem?_insertIfNew, hknown] using h u i

theorem insertIfNew_of_not_mem (h : Indexes index ts) {t : ν} (ht : t ∉ ts) :
    Indexes (index.insertIfNew t ts.length) (ts ++ [t]) := by
  intro u i
  have hnew : t ∉ index := fun hm => ht ((h.mem_iff t).mp hm)
  have hconcat : (ts ++ [t])[i]? = some u ↔ ts[i]? = some u ∨ i = ts.length ∧ t = u := by grind
  rw [hconcat, Std.HashMap.getElem?_insertIfNew]
  by_cases hu : t = u
  · subst hu
    have hnone : ts[i]? ≠ some t := fun hi => ht (List.mem_of_getElem? hi)
    simp [hnew, hnone, eq_comm]
  · simp [hu, h u i]

end Indexes
end Index

namespace EdgeGroup

variable {ν : Type}

theorem map_target_set {gs : List (EdgeGroup ν)} {g : EdgeGroup ν} {i : Nat} (hi : gs[i]? = some g)
    (edges : List (Edge ν)) :
    (gs.set i { g with edges := edges }).map (·.target) = gs.map (·.target) := by
  obtain ⟨hlt, rfl⟩ := List.getElem?_eq_some_iff.mp hi
  apply List.ext_getElem?
  intro j
  by_cases hij : i = j
  · subst hij
    simp [hlt]
  · simp [hij]

variable [DecidableEq ν]

theorem map_target_ofEdges (edges : List (Edge ν)) :
    (ofEdges edges).map (·.target) = (edges.map (·.target)).eraseDups := by
  simp [ofEdges_eq_map, Function.comp_def]

theorem ofEdges_concat (edges : List (Edge ν)) (e : Edge ν) :
    ofEdges (edges ++ [e]) = push (ofEdges edges) e := by
  simp [ofEdges]

theorem edges_of_mem_ofEdges {edges : List (Edge ν)} {g : EdgeGroup ν} (h : g ∈ ofEdges edges) :
    g.edges = edges.filter (·.target == g.target) := by
  rw [ofEdges_eq_map] at h
  obtain ⟨t, _, rfl⟩ := List.mem_map.mp h
  rfl

theorem edges_ne_nil_of_mem_ofEdges {edges : List (Edge ν)} {g : EdgeGroup ν}
    (h : g ∈ ofEdges edges) : g.edges ≠ [] := by
  have htarget : g.target ∈ (edges.map (·.target)).eraseDups := by
    rw [← map_target_ofEdges]
    exact List.mem_map.mpr ⟨g, h, rfl⟩
  obtain ⟨e, he, hte⟩ := List.mem_map.mp (List.mem_eraseDups.mp htarget)
  apply List.ne_nil_of_mem (a := e)
  simp [edges_of_mem_ofEdges h, he, hte]

theorem push_of_not_mem {gs : List (EdgeGroup ν)} {e : Edge ν}
    (h : e.target ∉ gs.map (·.target)) : push gs e = gs ++ [⟨e.target, [e]⟩] := by
  induction gs with
  | nil => rfl
  | cons g gs ih =>
    simp only [List.map_cons, List.mem_cons, not_or] at h
    simp [push, Ne.symm h.1, ih h.2]

theorem push_of_getElem? {gs : List (EdgeGroup ν)} (hgs : (gs.map (·.target)).Nodup) {e : Edge ν}
    {g : EdgeGroup ν} {i : Nat} (hi : gs[i]? = some g) (hg : g.target = e.target) :
    push gs e = gs.set i { g with edges := g.edges ++ [e] } := by
  induction gs generalizing i with
  | nil => simp at hi
  | cons g' gs ih =>
    simp only [List.map_cons, List.nodup_cons] at hgs
    cases i with
    | zero =>
      obtain rfl : g' = g := by simpa using hi
      simp [push, hg]
    | succ i =>
      have hi : gs[i]? = some g := by simpa using hi
      have hne : g'.target ≠ e.target := by
        intro he
        apply hgs.1
        rw [he, ← hg]
        exact List.mem_map.mpr ⟨g, List.mem_of_getElem? hi, rfl⟩
      simp [push, hne, ih hgs.2 hi]

end EdgeGroup

namespace IndexedGroups

variable {ν : Type} [DecidableEq ν] [Hashable ν] {m : IndexedGroups ν} {edges : List (Edge ν)}

structure Holds (m : IndexedGroups ν) (edges : List (Edge ν)) : Prop where
  groups_eq : m.groups = EdgeGroup.ofEdges edges
  indexes : Indexes m.index m.targets

theorem holds_empty : Holds (empty : IndexedGroups ν) [] := by
  refine ⟨rfl, fun t i => ?_⟩
  simp [empty, targets]

theorem Holds.targets_eq (h : m.Holds edges) :
    m.targets = (edges.map (·.target)).eraseDups := by
  rw [targets, h.groups_eq, EdgeGroup.map_target_ofEdges]

theorem Holds.nodup_targets (h : m.Holds edges) : m.targets.Nodup := by
  rw [h.targets_eq]
  exact nodup_eraseDups _

theorem Holds.push_of_mem (h : m.Holds edges) {e : Edge ν} (he : e.target ∈ m.targets) :
    ∃ m', m.push? e = some m' ∧ m'.Holds (edges ++ [e]) := by
  obtain ⟨i, hi⟩ := List.mem_iff_getElem?.mp he
  have hslot := (h.indexes e.target i).mpr hi
  rw [targets, List.getElem?_map, Option.map_eq_some_iff] at hi
  obtain ⟨g, hg, hge⟩ := hi
  have hlt : i < m.groups.length := (List.getElem?_eq_some_iff.mp hg).1
  refine ⟨⟨m.groups.set i { g with edges := g.edges ++ [e] },
    m.index.insertIfNew e.target m.groups.length⟩, ?_, ?_, ?_⟩
  · simp [push?, Std.HashMap.getD_eq_getD_getElem?, hslot, Nat.ne_of_lt hlt, hg]
  · rw [EdgeGroup.ofEdges_concat, ← h.groups_eq, EdgeGroup.push_of_getElem? h.nodup_targets hg hge]
  · rw [targets, EdgeGroup.map_target_set hg]
    exact h.indexes.insertIfNew_of_mem he _

theorem Holds.push_of_not_mem (h : m.Holds edges) {e : Edge ν} (he : e.target ∉ m.targets) :
    ∃ m', m.push? e = some m' ∧ m'.Holds (edges ++ [e]) := by
  have hnew : e.target ∉ m.index := fun hm => he ((h.indexes.mem_iff e.target).mp hm)
  have hlength : m.groups.length = m.targets.length := by simp [targets]
  refine ⟨⟨m.groups ++ [⟨e.target, [e]⟩], m.index.insertIfNew e.target m.groups.length⟩, ?_, ?_, ?_⟩
  · simp [push?, Std.HashMap.getD_eq_fallback hnew]
  · rw [EdgeGroup.ofEdges_concat, ← h.groups_eq, EdgeGroup.push_of_not_mem he]
  · rw [targets, List.map_append, hlength]
    exact h.indexes.insertIfNew_of_not_mem he

/-- One more edge leaves the groups and the index in step. -/
theorem Holds.push (h : m.Holds edges) (e : Edge ν) :
    ∃ m', m.push? e = some m' ∧ m'.Holds (edges ++ [e]) := by
  by_cases he : e.target ∈ m.targets
  · exact h.push_of_mem he
  · exact h.push_of_not_mem he

theorem exists_holds (edges : List (Edge ν)) : ∃ m, ofEdges? edges = some m ∧ m.Holds edges := by
  induction edges using List.reverseRecOn with
  | nil => exact ⟨empty, rfl, holds_empty⟩
  | append_singleton edges e ih =>
    obtain ⟨m, hm, hholds⟩ := ih
    obtain ⟨m', hm', hholds'⟩ := hholds.push e
    refine ⟨m', ?_, hholds'⟩
    rw [ofEdges?] at hm ⊢
    simp [hm, hm']

/-- An edge lies in the group at the slot of its target, and in no other group. -/
theorem Holds.mem_group_iff (h : m.Holds edges) {e : Edge ν} {i : Nat} :
    (∃ g, m.groups[i]? = some g ∧ e ∈ g.edges) ↔ e ∈ edges ∧ m.index[e.target]? = some i := by
  rw [h.indexes e.target i, targets, List.getElem?_map, Option.map_eq_some_iff]
  constructor
  · rintro ⟨g, hg, he⟩
    have hmem : g ∈ EdgeGroup.ofEdges edges := h.groups_eq ▸ List.mem_of_getElem? hg
    rw [EdgeGroup.edges_of_mem_ofEdges hmem, List.mem_filter, beq_iff_eq] at he
    exact ⟨he.1, g, hg, he.2.symm⟩
  · rintro ⟨he, g, hg, hge⟩
    have hmem : g ∈ EdgeGroup.ofEdges edges := h.groups_eq ▸ List.mem_of_getElem? hg
    refine ⟨g, hg, ?_⟩
    simp [EdgeGroup.edges_of_mem_ofEdges hmem, he, hge]

/-- The groups are the stable partition of the edges by target: one for each target, in the order in
which targets are first seen, with all edges that lead to it in their order. The index gives the
place of each target and of nothing else. -/
structure Partitions (m : IndexedGroups ν) (edges : List (Edge ν)) : Prop where
  groups_eq : m.groups = EdgeGroup.ofEdges edges
  nodup_targets : m.targets.Nodup
  targets_eq : m.targets = (edges.map (·.target)).eraseDups
  edges_ne_nil : ∀ g ∈ m.groups, g.edges ≠ []
  edges_eq : ∀ g ∈ m.groups, g.edges = edges.filter (·.target == g.target)
  index_eq_some_iff : ∀ (t : ν) (i : Nat), m.index[t]? = some i ↔ m.targets[i]? = some t
  perm : (m.groups.flatMap EdgeGroup.edges).Perm edges

theorem Holds.partitions (h : m.Holds edges) : m.Partitions edges where
  groups_eq := h.groups_eq
  nodup_targets := h.nodup_targets
  targets_eq := h.targets_eq
  edges_ne_nil g hg := EdgeGroup.edges_ne_nil_of_mem_ofEdges (h.groups_eq ▸ hg)
  edges_eq g hg := EdgeGroup.edges_of_mem_ofEdges (h.groups_eq ▸ hg)
  index_eq_some_iff := h.indexes
  perm := by
    rw [h.groups_eq]
    exact EdgeGroup.perm_flatMap_edges_ofEdges edges

end IndexedGroups

namespace SortedEdges

variable {ν : Type} [DecidableEq ν] [Hashable ν] {s : SortedEdges ν} {edges : List (Edge ν)}

def Holds (s : SortedEdges ν) (edges : List (Edge ν)) : Prop :=
  ∀ stays, (s.bucket stays).Holds (edges.filter (·.stays == stays))

theorem Holds.push (h : s.Holds edges) (e : Edge ν) :
    ∃ s', s.push? e = some s' ∧ s'.Holds (edges ++ [e]) ∧ s'.fallback = s.fallback := by
  obtain ⟨m, hm, hholds⟩ := (h e.stays).push e
  cases he : e.stays with
  | false =>
    rw [he] at hm hholds
    refine ⟨{ s with advancing := m }, ?_, fun stays => ?_, rfl⟩
    · simpa [push?, he, bucket] using hm
    · cases stays with
      | false => simpa [bucket, he] using hholds
      | true => simpa [bucket, he] using h true
  | true =>
    rw [he] at hm hholds
    refine ⟨{ s with staying := m }, ?_, fun stays => ?_, rfl⟩
    · simpa [push?, he, bucket] using hm
    · cases stays with
      | false => simpa [bucket, he] using h false
      | true => simpa [bucket, he] using hholds

theorem exists_foldlM_push (s : SortedEdges ν) (hs : s.Holds []) (edges : List (Edge ν)) :
    ∃ s', edges.foldlM push? s = some s' ∧ s'.Holds edges ∧ s'.fallback = s.fallback := by
  induction edges using List.reverseRecOn with
  | nil => exact ⟨s, rfl, hs, rfl⟩
  | append_singleton edges e ih =>
    obtain ⟨s', hs', hholds, hfallback⟩ := ih
    obtain ⟨s'', hs'', hholds', hfallback'⟩ := hholds.push e
    refine ⟨s'', ?_, hholds', hfallback'.trans hfallback⟩
    simp [hs', hs'']

/-- Every edge lies in exactly one group of exactly one collection. -/
theorem Holds.existsUnique_place (h : s.Holds edges) {e : Edge ν} (he : e ∈ edges) :
    ∃! place : Bool × Nat,
      ∃ g, (s.bucket place.1).groups[place.2]? = some g ∧ e ∈ g.edges := by
  have hplace (stays : Bool) (i : Nat) :
      (∃ g, (s.bucket stays).groups[i]? = some g ∧ e ∈ g.edges) ↔
        e.stays = stays ∧ (s.bucket stays).index[e.target]? = some i := by
    simp [(h stays).mem_group_iff, he]
  have hmem : e.target ∈ (s.bucket e.stays).index := by
    rw [(h e.stays).indexes.mem_iff, (h e.stays).targets_eq, List.mem_eraseDups]
    exact List.mem_map.mpr ⟨e, by simp [he], rfl⟩
  obtain ⟨i, hi⟩ := Option.isSome_iff_exists.mp (Std.HashMap.mem_iff_isSome_getElem?.mp hmem)
  refine ⟨(e.stays, i), (hplace _ _).mpr ⟨rfl, hi⟩, ?_⟩
  rintro ⟨stays, j⟩ hj
  obtain ⟨rfl, hj⟩ := (hplace _ _).mp hj
  rw [hi] at hj
  simpa using hj.symm

theorem Holds.perm (h : s.Holds edges) : s.all.Perm edges := by
  have hnot : edges.filter (·.stays == true) = edges.filter fun e => !(e.stays == false) := by
    apply List.filter_congr
    intro e _
    cases e.stays <;> rfl
  have hflags : (edges.filter (·.stays == false) ++ edges.filter (·.stays == true)).Perm edges := by
    rw [hnot]
    exact List.filter_append_perm _ edges
  have hperm := (h false).partitions.perm.append (h true).partitions.perm
  simpa [all] using hperm.trans hflags

/-- The edges of a node, each in exactly one group of exactly one collection. -/
structure Sorts (s : SortedEdges ν) (v : Node ν) : Prop where
  groups_eq : ∀ stays, (s.bucket stays).groups = v.groups stays
  fallback_eq : s.fallback = v.fallback
  partitions : ∀ stays, (s.bucket stays).Partitions (v.edges.filter (·.stays == stays))
  existsUnique_place : ∀ e ∈ v.edges, ∃! place : Bool × Nat,
    ∃ g, (s.bucket place.1).groups[place.2]? = some g ∧ e ∈ g.edges
  perm : s.all.Perm v.edges

end SortedEdges

theorem Node.exists_sorts {ν : Type} [DecidableEq ν] [Hashable ν] (v : Node ν) :
    ∃ s, v.sort? = some s ∧ s.Sorts v := by
  have hstart : SortedEdges.Holds (⟨.empty, .empty, v.fallback⟩ : SortedEdges ν) [] := by
    intro stays
    cases stays <;> exact IndexedGroups.holds_empty
  obtain ⟨s, hs, h, hfallback⟩ := SortedEdges.exists_foldlM_push _ hstart v.edges
  exact ⟨s, hs, {
    groups_eq := fun stays => (h stays).groups_eq
    fallback_eq := hfallback
    partitions := fun stays => (h stays).partitions
    existsUnique_place := fun e he => h.existsUnique_place he
    perm := h.perm }⟩

/-- How many bytes a key matches. A code matches none of the input. -/
def Key.size? : Key → Option Nat
  | .code _ => none
  | .bytes bs => some bs.length

namespace KeyShapes

theorem add_ofKeys (keys : List Key) (k : Key) : (ofKeys keys).add k = ofKeys (keys ++ [k]) := by
  rcases k with c | ⟨_ | ⟨b, _ | ⟨b', bs⟩⟩⟩ <;>
    simp [add, ofKeys, Key.singleByte?, Key.sequence?, Key.code?]

theorem addKeys_ofKeys {ν : Type} (keys : List Key) (i : Nat) (edges : List (Edge ν)) :
    (ofKeys keys).addKeys i edges =
      match edges.findIdx? (·.key.isNone) with
      | some position => .error (i + position)
      | none => .ok (ofKeys (keys ++ edges.filterMap (·.key))) := by
  induction edges generalizing keys i with
  | nil => simp [addKeys]
  | cons e edges ih =>
    cases he : e.key with
    | none => simp [addKeys, he, List.findIdx?_cons]
    | some k =>
      simp only [addKeys, he, add_ofKeys, ih, List.findIdx?_cons, Option.isNone_some,
        Bool.false_eq_true, if_false, List.filterMap_cons]
      cases edges.findIdx? (·.key.isNone) with
      | none => simp
      | some position => simp [Nat.add_comm, Nat.add_left_comm]

theorem map_filterMap_eq_filter {β : Type} {f : Key → Option β} {make : β → Key} {p : Key → Bool}
    (h : ∀ k, (f k).map make = if p k then some k else none) (keys : List Key) :
    (keys.filterMap f).map make = keys.filter p := by
  have hguard : (fun k => (f k).map make) = Option.guard p := by
    funext k
    simp [h, Option.guard]
  rw [List.map_filterMap, hguard, List.filterMap_eq_filter]

theorem map_singles_ofKeys (keys : List Key) :
    (ofKeys keys).singles.map (fun b => Key.bytes [b]) = keys.filter (·.size? == some 1) := by
  apply map_filterMap_eq_filter
  rintro (c | ⟨_ | ⟨b, _ | ⟨b', bs⟩⟩⟩) <;> simp [Key.singleByte?, Key.size?]

theorem map_sequences_ofKeys (keys : List Key) :
    (ofKeys keys).sequences.map Key.bytes =
      keys.filter fun k => !k.isCode && k.size? != some 1 := by
  apply map_filterMap_eq_filter
  rintro (c | ⟨_ | ⟨b, _ | ⟨b', bs⟩⟩⟩) <;> simp [Key.sequence?, Key.size?, Key.isCode]

theorem map_codes_ofKeys (keys : List Key) :
    (ofKeys keys).codes.map Key.code = keys.filter Key.isCode := by
  apply map_filterMap_eq_filter
  rintro (c | bs) <;> simp [Key.code?, Key.isCode]

/-- The shapes hold the keys of each shape in their order. -/
structure Sorts (s : KeyShapes) (keys : List Key) : Prop where
  singles_eq : s.singles.map (fun b => Key.bytes [b]) = keys.filter (·.size? == some 1)
  sequences_eq : s.sequences.map Key.bytes = keys.filter fun k => !k.isCode && k.size? != some 1
  codes_eq : s.codes.map Key.code = keys.filter Key.isCode

theorem sorts_ofKeys (keys : List Key) : (ofKeys keys).Sorts keys where
  singles_eq := map_singles_ofKeys keys
  sequences_eq := map_sequences_ofKeys keys
  codes_eq := map_codes_ofKeys keys

end KeyShapes

namespace EdgeGroup

variable {ν : Type}

/-- One pass finds the shapes, or the position of the first edge without a key. -/
theorem split_eq (g : EdgeGroup ν) : g.split = g.shapes := by
  have hstart : (⟨[], [], []⟩ : KeyShapes) = .ofKeys [] := rfl
  rw [split, hstart, KeyShapes.addKeys_ofKeys, shapes]
  cases g.edges.findIdx? (·.key.isNone) <;> simp

theorem length_filterMap_key {edges : List (Edge ν)} (h : ∀ e ∈ edges, e.key ≠ none) :
    (edges.filterMap (·.key)).length = edges.length := by
  induction edges with
  | nil => rfl
  | cons e edges ih =>
    obtain ⟨k, hk⟩ := Option.ne_none_iff_exists'.mp (h e List.mem_cons_self)
    simp [hk, ih fun e' he => h e' (List.mem_cons_of_mem e he)]

end EdgeGroup

/-- Whatever is pushed, no slot is out of range, and what comes out is the stable partition by
target with its index. So the edges of a node lie in one group of one collection each, and a group
whose edges all have keys is sorted into the keys of each shape. -/
theorem IndexedGroups.stable_partition {ν : Type} [DecidableEq ν] [Hashable ν] :
    (∀ edges : List (Edge ν), ∃ m, ofEdges? edges = some m ∧ m.Partitions edges) ∧
      (∀ v : Node ν, ∃ s, v.sort? = some s ∧ s.Sorts v) ∧
      ∀ g : EdgeGroup ν, g.split = g.shapes ∧
        ((∀ e ∈ g.edges, e.key ≠ none) → ∃ shapes, g.split = .ok shapes ∧
          shapes.Sorts (g.edges.filterMap (·.key)) ∧
          shapes.singles.length + shapes.sequences.length + shapes.codes.length =
            g.edges.length) := by
  refine ⟨fun edges => ?_, Node.exists_sorts, fun g => ⟨g.split_eq, fun hkeyed => ?_⟩⟩
  · obtain ⟨m, hm, h⟩ := exists_holds edges
    exact ⟨m, hm, h.partitions⟩
  · have hcount := KeyShapes.count_ofKeys (g.edges.filterMap (·.key))
    rw [EdgeGroup.length_filterMap_key hkeyed] at hcount
    rw [EdgeGroup.split_eq, EdgeGroup.shapes_of_keyed hkeyed]
    exact ⟨_, rfl, KeyShapes.sorts_ofKeys _, hcount⟩

end StateDiagram
