import Mathlib
import StateDiagram.Proofs.Blocks
import StateDiagram.Proofs.Keyless
import StateDiagram.Proofs.Naming
import StateDiagram.Proofs.Renaming

/-! How many statements of a block share their target and their color. Whether an edge takes input
is told by the kind of its statement if its key is of bytes, but not if it is a code. So there is
one statement for each kind and target, unless codes lead to the target both on edges that take
input and on edges that do not: then there are two (`Graph.countP_regular`). -/
namespace StateDiagram

theorem EdgeKind.color_injective : Function.Injective EdgeKind.color := by
  intro a b h
  cases a <;> cases b <;> first | rfl | cases h

def Statement.place (s : Statement) : String × Color := (s.target, s.color)

section Kinds

variable {ν : Type}

def Edge.kind? (e : Edge ν) : Option EdgeKind :=
  e.key.map fun k => if k.isCode then .invoke else .ofStays e.stays

variable [DecidableEq ν]

/-- Codes lead to `t` both on an edge that takes input and on one that does not. -/
def Node.MixesCodes (v : Node ν) (t : ν) : Prop :=
  ∀ stays, ∃ e ∈ v.edges, e.stays = stays ∧ e.target = t ∧ e.kind? = some .invoke

namespace Node

def draws (v : Node ν) (stays : Bool) (t : ν) (kind : EdgeKind) : Bool :=
  v.edges.any fun e => e.stays == stays && e.target == t && e.kind? == some kind

theorem draws_eq_any (v : Node ν) (stays : Bool) (t : ν) (kind : EdgeKind) :
    v.draws stays t kind = (v.edgesTo stays t).any fun e => e.kind? == some kind := by
  rw [draws, edgesTo, List.any_filter]

theorem draws_eq (v : Node ν) (stays : Bool) (t : ν) (kind : EdgeKind) :
    v.draws stays t kind =
      (kind == .ofStays stays && (v.edgesTo stays t).any Edge.hasBytes ||
        kind == .invoke && (v.edgesTo stays t).any Edge.hasCode) := by
  have hkind : ∀ e ∈ v.edgesTo stays t, (e.kind? == some kind) =
      (kind == .ofStays stays && e.hasBytes || kind == .invoke && e.hasCode) := by
    intro e he
    have hstays : e.stays = stays := by
      have hflag := (List.mem_filter.mp he).2
      simp only [Bool.and_eq_true, beq_iff_eq] at hflag
      exact hflag.1
    cases hk : e.key with
    | none => simp [Edge.kind?, Edge.hasBytes, Edge.hasCode, hk]
    | some k =>
      cases hc : k.isCode <;>
        simp [Edge.kind?, Edge.hasBytes, Edge.hasCode, hk, hc, hstays, Bool.beq_comm]
  rw [draws_eq_any, Bool.eq_iff_iff]
  simp only [Bool.or_eq_true, Bool.and_eq_true, List.any_eq_true]
  constructor
  · rintro ⟨e, he, hk⟩
    rw [hkind e he, Bool.or_eq_true, Bool.and_eq_true, Bool.and_eq_true] at hk
    exact hk.imp (fun h => ⟨h.1, e, he, h.2⟩) fun h => ⟨h.1, e, he, h.2⟩
  · rintro (⟨hk, e, he, hb⟩ | ⟨hk, e, he, hc⟩)
    · exact ⟨e, he, by rw [hkind e he, hk, hb]; rfl⟩
    · exact ⟨e, he, by rw [hkind e he, hk, hc, Bool.or_comm]; rfl⟩

theorem target_of_mem_bundlesTo {v : Node ν} {stays : Bool} {t : ν} {b : Bundle ν}
    (h : b ∈ v.bundlesTo stays t) : b.target = t := by
  rw [bundlesTo] at h
  rcases List.mem_append.mp h with h | h
  · split at h
    · rw [List.mem_singleton.mp h]
    · cases h
  · split at h
    · rw [List.mem_singleton.mp h]
    · cases h

theorem bundlesTo_eq_nil {v : Node ν} {stays : Bool} {t : ν} (h : t ∉ v.targets stays) :
    v.bundlesTo stays t = [] := by
  have hnone : v.edgesTo stays t = [] := by
    rw [edgesTo, List.filter_eq_nil_iff]
    intro e he hflag
    simp only [Bool.and_eq_true, beq_iff_eq] at hflag
    refine h (List.mem_eraseDups.mpr (List.mem_map.mpr ⟨e, List.mem_filter.mpr ⟨he, ?_⟩, hflag.2⟩))
    exact beq_iff_eq.mpr hflag.1
  simp [bundlesTo, hnone]

/-- Of what different targets bring about, one target picks its own part. -/
theorem filter_target_flatMap {f : ν → List (Bundle ν)} (hf : ∀ u, ∀ b ∈ f u, b.target = u) (t : ν)
    {ts : List ν} (hts : ts.Nodup) :
    (ts.flatMap f).filter (·.target == t) = if t ∈ ts then f t else [] := by
  induction ts with
  | nil => rfl
  | cons u ts ih =>
    obtain ⟨hu, hts⟩ := List.nodup_cons.mp hts
    rw [List.flatMap_cons, List.filter_append, ih hts]
    by_cases h : t = u
    · subst h
      have hall : (f t).filter (·.target == t) = f t :=
        List.filter_eq_self.mpr fun b hb => beq_iff_eq.mpr (hf t b hb)
      rw [hall, if_neg hu, if_pos List.mem_cons_self, List.append_nil]
    · have hnone : (f u).filter (·.target == t) = [] :=
        List.filter_eq_nil_iff.mpr fun b hb heq => h ((beq_iff_eq.mp heq).symm.trans (hf u b hb))
      simp only [hnone, List.nil_append, List.mem_cons, h, false_or]

theorem filter_target_bundles (v : Node ν) (t : ν) :
    v.bundles.filter (·.target == t) = v.bundlesTo false t ++ v.bundlesTo true t := by
  have hflag (stays : Bool) : ((v.targets stays).flatMap (v.bundlesTo stays)).filter
      (·.target == t) = v.bundlesTo stays t := by
    have hf : ∀ u, ∀ b ∈ v.bundlesTo stays u, b.target = u := fun _ _ => target_of_mem_bundlesTo
    have hts : (v.targets stays).Nodup := nodup_eraseDups _
    rw [filter_target_flatMap hf t hts]
    split
    · rfl
    · rename_i h
      exact (bundlesTo_eq_nil h).symm
  simp only [bundles, List.flatMap_cons, List.flatMap_nil, List.append_nil, List.filter_append,
    hflag]

theorem countP_kind_bundlesTo (v : Node ν) (stays : Bool) (t : ν) (kind : EdgeKind) :
    (v.bundlesTo stays t).countP (·.kind == kind) = if v.draws stays t kind then 1 else 0 := by
  have hpart (b : Bundle ν) (any : Bool) :
      (if any then [b] else []).countP (·.kind == kind) = if kind == b.kind && any then 1 else 0 := by
    cases any <;> simp [Bool.beq_comm]
  rw [bundlesTo, List.countP_append, hpart, hpart, draws_eq]
  generalize (v.edgesTo stays t).any Edge.hasBytes = bytes
  generalize (v.edgesTo stays t).any Edge.hasCode = codes
  cases stays <;> cases kind <;> cases bytes <;> cases codes <;> rfl

/-- The bundles of one kind that lead to one target: at most one for each flag. -/
theorem countP_bundles (v : Node ν) (t : ν) (kind : EdgeKind) :
    v.bundles.countP (fun b => b.target == t && b.kind == kind) =
      [false, true].countP fun stays => v.draws stays t kind := by
  have hfilter : v.bundles.countP (fun b => b.target == t && b.kind == kind) =
      (v.bundles.filter (·.target == t)).countP (·.kind == kind) := by
    rw [List.countP_filter]
    simp only [Bool.and_comm]
  rw [hfilter, filter_target_bundles, List.countP_append, countP_kind_bundlesTo,
    countP_kind_bundlesTo, List.countP_cons, List.countP_cons, List.countP_nil]
  omega

theorem mixesCodes_iff {v : Node ν} {t : ν} :
    v.MixesCodes t ↔ v.draws false t .invoke = true ∧ v.draws true t .invoke = true := by
  rw [MixesCodes, Bool.forall_bool]
  simp only [draws, List.any_eq_true, Bool.and_eq_true, beq_iff_eq, and_assoc]

theorem mixesCodes_of_draws {v : Node ν} {t : ν} {kind : EdgeKind}
    (hfalse : v.draws false t kind = true) (htrue : v.draws true t kind = true) :
    v.MixesCodes t := by
  have hkind : kind = .invoke := by
    rw [draws_eq] at hfalse htrue
    cases kind with
    | advance => simp [EdgeKind.ofStays] at htrue
    | stay => simp [EdgeKind.ofStays] at hfalse
    | invoke => rfl
  subst hkind
  exact mixesCodes_iff.mpr ⟨hfalse, htrue⟩

theorem target_mem_successors {v : Node ν} {b : Bundle ν} (h : b ∈ v.bundles) :
    b.target ∈ v.successors := by
  obtain ⟨stays, _, h⟩ := List.mem_flatMap.mp h
  obtain ⟨t, ht, h⟩ := List.mem_flatMap.mp h
  rw [target_of_mem_bundlesTo h]
  exact mem_successors_of_mem_targets ht

end Node
end Kinds

namespace Graph

variable {n : Nat}

def drawnId (g : Graph n) (root v : Fin n) : String := (g.identifiers root).idOf v (g.name v)

/-- `regular` gives, node by node, the statements of the blocks `bs` that are for edges: all but the
one for the fallback, which is the last. -/
def SplitsOff (g : Graph n) (root : Fin n) (bs : List Block) (regular : Fin n → List Statement) :
    Prop :=
  bs = (g.reachableFrom root).map fun v =>
    ⟨g.drawnId root v, regular v ++ g.fallbackStatements (g.drawnId root) v⟩

def bundleStatements (g : Graph n) (root v : Fin n) : List Statement :=
  (g.node v).bundles.map (Bundle.statement (g.drawnId root) v)

theorem splitsOff_bundleStatements {g : Graph n} {root : Fin n} {bs : List Block}
    (h : g.blocks root = .ok bs) : g.SplitsOff root bs (g.bundleStatements root) := by
  have hkeyed : ∀ v, g.Reaches root v → (g.node v).Keyed := fun v hv => key_ne_none_of_blocks h hv
  rw [blocks_of_keyed hkeyed] at h
  rw [SplitsOff, ← Except.ok.inj h]
  simp only [Node.reference, fallbackStatements_eq_map]
  rfl

theorem drawnId_inj (g : Graph n) {root v w : Fin n} (hv : g.Reaches root v)
    (hw : g.Reaches root w) : g.drawnId root v = g.drawnId root w ↔ v = w :=
  ⟨g.idOf_identifiers_inj ((mem_reachableFrom_iff g root v).mpr hv)
    ((mem_reachableFrom_iff g root w).mpr hw), fun h => h ▸ rfl⟩

theorem countP_bundleStatements {g : Graph n} {root v w : Fin n} (hv : g.Reaches root v)
    (hw : g.Reaches root w) (kind : EdgeKind) :
    (g.bundleStatements root v).countP (·.place == (g.drawnId root w, kind.color)) =
      [false, true].countP fun stays => (g.node v).draws stays w kind := by
  rw [← Node.countP_bundles, bundleStatements, List.countP_map]
  refine List.countP_congr fun b hb => ?_
  have htarget : g.Reaches root b.target := .step hv (Node.target_mem_successors hb)
  simp only [Function.comp_apply, Statement.place, Bundle.statement, beq_iff_eq, Prod.mk.injEq,
    Bool.and_eq_true, g.drawnId_inj htarget hw, EdgeKind.color_injective.eq_iff]

theorem nodup_place_iff {g : Graph n} {root v : Fin n} (hv : g.Reaches root v) :
    ((g.bundleStatements root v).map Statement.place).Nodup ↔ ∀ w, ¬(g.node v).MixesCodes w := by
  have hcount {w : Fin n} (hw : g.Reaches root w) (kind : EdgeKind) :
      ((g.bundleStatements root v).map Statement.place).count (g.drawnId root w, kind.color) =
        [false, true].countP fun stays => (g.node v).draws stays w kind := by
    rw [List.count, List.countP_map, ← countP_bundleStatements hv hw]
    rfl
  rw [List.nodup_iff_count_le_one]
  constructor
  · intro h w hmix
    obtain ⟨e, he, _, rfl, _⟩ := hmix true
    have hw : g.Reaches root e.target := .step hv (Node.mem_successors.mpr (.inr ⟨e, he, rfl⟩))
    obtain ⟨hfalse, htrue⟩ := Node.mixesCodes_iff.mp hmix
    have htwo := h (g.drawnId root e.target, EdgeKind.invoke.color)
    rw [hcount hw] at htwo
    simp [hfalse, htrue] at htwo
  · intro h place
    by_cases hplace : place ∈ (g.bundleStatements root v).map Statement.place
    · rw [bundleStatements, List.map_map] at hplace
      obtain ⟨b, hb, rfl⟩ := List.mem_map.mp hplace
      refine (hcount (.step hv (Node.target_mem_successors hb)) b.kind).trans_le ?_
      by_contra hle
      have hboth : (g.node v).draws false b.target b.kind = true ∧
          (g.node v).draws true b.target b.kind = true := by
        cases hf : (g.node v).draws false b.target b.kind <;>
          cases ht : (g.node v).draws true b.target b.kind <;> simp [hf, ht] at hle ⊢
      exact h b.target (Node.mixesCodes_of_draws hboth.1 hboth.2)
    · rw [List.count_eq_zero_of_not_mem hplace]
      exact Nat.zero_le 1

end Graph

/-- In each block of a drawing, the statements for edges that lead to a node in the color of a kind
are as many as the flags with which an edge of that kind leads there. So no two of them share their
target and their color unless codes lead to one target with both flags. -/
theorem Graph.countP_regular {n : Nat} (r : Renderer n) (g : Graph n) (root : Fin n)
    {bs : List Block} (h : (r.blocks g root).1 = .ok bs) :
    ∃ regular : Fin n → List Statement, g.SplitsOff root bs regular ∧ ∀ v, g.Reaches root v →
      (∀ w, g.Reaches root w → ∀ kind : EdgeKind,
          (regular v).countP (·.place == (g.drawnId root w, kind.color)) =
            [false, true].countP fun stays => (g.node v).draws stays w kind) ∧
        (((regular v).map Statement.place).Nodup ↔ ∀ w, ¬(g.node v).MixesCodes w) :=
  ⟨g.bundleStatements root, splitsOff_bundleStatements h, fun _ hv =>
    ⟨fun _ hw kind => countP_bundleStatements hv hw kind, nodup_place_iff hv⟩⟩

/-- Codes to one target, one of them on an edge that takes input. -/
def doublyCoded : Graph 1 :=
  ⟨#v[⟨"a", [⟨0, some (.code 1), false⟩, ⟨0, some (.bytes [0x78]), true⟩, ⟨0, some (.code 2), true⟩,
    ⟨0, some (.bytes [0x79]), false⟩], some ⟨0, true⟩⟩]⟩

theorem Graph.countP_doublyCoded :
    ∃ bs, ((Renderer.new .plain).blocks doublyCoded 0).1 = .ok bs ∧
      ∃ regular : Fin 1 → List Statement, doublyCoded.SplitsOff 0 bs regular ∧
        (regular 0).countP (·.place == (doublyCoded.drawnId 0 0, .green)) = 2 ∧
        (regular 0).countP (·.place == (doublyCoded.drawnId 0 0, .blue)) = 1 := by
  have hok : ∃ bs, ((Renderer.new .plain).blocks doublyCoded 0).1 = .ok bs := ⟨_, by cbv⟩
  obtain ⟨bs, hbs⟩ := hok
  obtain ⟨regular, hsplit, hregular⟩ := Graph.countP_regular (.new .plain) doublyCoded 0 hbs
  obtain ⟨hcount, _⟩ := hregular 0 .root
  exact ⟨bs, hbs, regular, hsplit, (hcount 0 .root .invoke).trans (by decide),
    (hcount 0 .root .stay).trans (by decide)⟩

/-- Two statements of a block for edges can have one target and one color. -/
theorem Graph.exists_not_nodup_place :
    ∃ (bs : List Block) (regular : Fin 1 → List Statement),
      ((Renderer.new .plain).blocks doublyCoded 0).1 = .ok bs ∧ doublyCoded.SplitsOff 0 bs regular ∧
        ¬((regular 0).map Statement.place).Nodup := by
  refine ⟨[⟨"a", [⟨"a", "a", "'y'", .black⟩, ⟨"a", "a", "code=1", .green⟩,
      ⟨"a", "a", "'x'", .blue⟩, ⟨"a", "a", "code=2", .green⟩, ⟨"a", "a", "otherwise", .blue⟩]⟩],
    fun _ => [⟨"a", "a", "'y'", .black⟩, ⟨"a", "a", "code=1", .green⟩, ⟨"a", "a", "'x'", .blue⟩,
      ⟨"a", "a", "code=2", .green⟩], by cbv, by rw [Graph.SplitsOff]; cbv, by decide⟩

end StateDiagram
