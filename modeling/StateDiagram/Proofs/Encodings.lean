import StateDiagram.Proofs.Attempts
import StateDiagram.Proofs.DecoderLaws

/-! Which tables describe a graph. A table with unique keys is decoded into a record exactly if it
spells the record out: every key is one of its fields, under each key of a field stands the value
of that field, and what is left out is absent or has its default. This follows from the laws of the
decoders, from the edges up (`Decoders.Lawful.description_eq_ok_iff`). It is about the records that
are tables themselves; a record can also be written as an array. -/
namespace StateDiagram

open Toml (Value)

/-! ### Spelling out -/

/-- The value is an array with one table for each record. -/
def Toml.Value.ArrayOf {α : Type} (encoded : α → List (String × Value) → Prop) (records : List α)
    (v : Value) : Prop :=
  ∃ tables, v = .array (tables.map .table) ∧ List.Forall₂ encoded records tables

/-- The table spells the edge entry out. -/
structure EdgeEntry.EncodedBy (e : EdgeEntry) (entries : List (String × Value)) : Prop where
  known : ∀ x ∈ entries, x.1 ∈ EdgeEntry.fieldNames
  target : entries.lookup "target" = some (.string e.target)
  literal : entries.lookup "match" = e.literal.map .string
  anyOf : entries.lookup "any_of" = e.anyOf.map .string
  bytes : entries.lookup "bytes" = e.bytes.map fun bs => .array (bs.map fun b => .integer b.toNat)
  code : entries.lookup "code" = e.code.map fun c => .integer c.toInt
  peek : Defaulted false (fun b v => v = .boolean b) e.peek (entries.lookup "peek")

structure NodeEntry.EncodedBy (e : NodeEntry) (entries : List (String × Value)) : Prop where
  known : ∀ x ∈ entries, x.1 ∈ NodeEntry.fieldNames
  id : entries.lookup "id" = some (.string e.id)
  name : entries.lookup "name" = e.name.map .string
  edges : Defaulted [] (Value.ArrayOf EdgeEntry.EncodedBy) e.edges (entries.lookup "edges")
  otherwise : entries.lookup "otherwise" = e.otherwise.map .string
  skipTo : entries.lookup "skip_to" = e.skipTo.map .string

structure Description.EncodedBy (d : Description) (entries : List (String × Value)) : Prop where
  known : ∀ x ∈ entries, x.1 ∈ Description.fieldNames
  root : entries.lookup "root" = some (.string d.root)
  nodes : Defaulted [] (Value.ArrayOf NodeEntry.EncodedBy) d.nodes (entries.lookup "nodes")

/-! ### Fields -/

namespace Field

variable {ε ρ α : Type} {key : String} {item : Value → Except ε α} {found : Option Value} {r : ρ}

theorem agrees_required_iff {get : ρ → α} {write : α → Value}
    (hitem : ∀ {v a}, item v = .ok a ↔ v = write a) :
    (required key get item).Agrees found r ↔ found = some (write (get r)) := by
  simp [Agrees, hitem]

theorem agrees_optional_iff {get : ρ → Option α} {write : α → Value}
    (hitem : ∀ {v a}, item v = .ok a ↔ v = write a) :
    (optional key get item).Agrees found r ↔ found = (get r).map write := by
  show Option.Rel (fun a v => item v = .ok a) (get r) found ↔ _
  cases get r <;> cases found <;> simp [hitem]

theorem agrees_defaulted_iff {default : α} {get : ρ → α} {written : α → Value → Prop}
    (hitem : ∀ v ∈ found, ∀ a, item v = .ok a ↔ written a v) :
    (defaulted key default get item).Agrees found r ↔
      Defaulted default written (get r) found := by
  constructor
  · rintro (_ | hok)
    · exact .omitted
    · exact .given ((hitem _ rfl _).mp hok)
  · rintro (_ | hwritten)
    · exact .omitted
    · exact .given ((hitem _ rfl _).mpr hwritten)

end Field

/-! ### Records within records -/

def Toml.Value.items : Value → List Value
  | .array items => items
  | _ => []

def Toml.Value.entries : Value → List (String × Value)
  | .table entries => entries
  | _ => []

def Toml.Value.isArray : Value → Bool
  | .array _ => true
  | _ => false

def recordsUnder (key : String) (entries : List (String × Value)) : List Value :=
  entries.flatMap fun x => if x.1 = key then x.2.items else []

theorem mem_recordsUnder {key : String} {entries : List (String × Value)} {v item : Value}
    (hx : entries.lookup key = some v) (hitem : item ∈ v.items) :
    item ∈ recordsUnder key entries :=
  List.mem_flatMap.mpr ⟨(key, v), Toml.mem_of_lookup_eq_some hx, by simpa using hitem⟩

def NodeEntry.Plain (entries : List (String × Value)) : Prop :=
  ∀ item ∈ recordsUnder "edges" entries, item.isArray = false

/-- No node entry in the table of a description is an array, and no edge entry in one of them. -/
def Description.Plain (entries : List (String × Value)) : Prop :=
  ∀ item ∈ recordsUnder "nodes" entries, item.isArray = false ∧ NodeEntry.Plain item.entries

instance (entries : List (String × Value)) : Decidable (NodeEntry.Plain entries) :=
  inferInstanceAs (Decidable (∀ item ∈ recordsUnder "edges" entries, item.isArray = false))

instance (entries : List (String × Value)) : Decidable (Description.Plain entries) :=
  inferInstanceAs (Decidable (∀ item ∈ recordsUnder "nodes" entries,
    item.isArray = false ∧ NodeEntry.Plain item.entries))

theorem Toml.Value.Distinct.item {v item : Value} (h : v.Distinct) (hitem : item ∈ v.items) :
    item.Distinct := by
  cases h with
  | array hitems => exact hitems item hitem
  | _ => cases hitem

theorem Toml.Value.Distinct.lookup {entries : List (String × Value)}
    (h : (Value.table entries).Distinct) {key : String} {v : Value}
    (hv : entries.lookup key = some v) : v.Distinct :=
  (Value.distinct_table_iff.mp h).2 _ (Toml.mem_of_lookup_eq_some hv)

theorem arrayOf_array_iff {α : Type} {encoded : α → List (String × Value) → Prop}
    {items : List Value} {records : List α} :
    (Value.array items).ArrayOf encoded records ↔
      List.Forall₂ (fun item a => ∃ entries, item = .table entries ∧ encoded a entries)
        items records := by
  constructor
  · rintro ⟨tables, hitems, h⟩
    rw [Value.array.inj hitems, List.forall₂_map_left_iff]
    exact .flip (h.imp fun a entries ha => ⟨entries, rfl, ha⟩)
  · intro h
    induction h with
    | nil => exact ⟨[], rfl, .nil⟩
    | cons hitem _ ih =>
      obtain ⟨entries, rfl, ha⟩ := hitem
      obtain ⟨tables, hitems, hall⟩ := ih
      rw [Value.array.inj hitems]
      exact ⟨entries :: tables, rfl, .cons ha hall⟩

theorem forall₂_congr_left {α φ : Type} {R S : α → φ → Prop} {xs : List α} {fs : List φ}
    (h : ∀ x ∈ xs, ∀ f, R x f ↔ S x f) : List.Forall₂ R xs fs ↔ List.Forall₂ S xs fs := by
  induction xs generalizing fs with
  | nil => rw [List.forall₂_nil_left_iff, List.forall₂_nil_left_iff]
  | cons x xs ih =>
    rw [List.forall_mem_cons] at h
    simp only [List.forall₂_cons_left_iff, h.1, ih h.2]

theorem Toml.Value.isScalar_or_eq_table {v : Value} (h : v.isArray = false) :
    v.IsScalar ∨ ∃ entries, v = .table entries := by
  cases v <;> simp_all [isArray, IsScalar]

namespace Decoders.Lawful

variable {ε ρ : Type} {D : Decoders ε} (hD : D.Lawful) {v : Value}
  {entries : List (String × Value)}

include hD

theorem bytes {bs : List UInt8} :
    D.list D.byte v = .ok bs ↔ v = .array (bs.map fun b => .integer b.toNat) := by
  simp only [hD.list, hD.byte]
  constructor
  · rintro ⟨items, rfl, h⟩
    rw [← List.forall₂_map_right_iff (R := (· = ·)), List.forall₂_eq_eq_eq] at h
    rw [h]
  · rintro rfl
    exact ⟨_, rfl, List.forall₂_map_left_iff.mpr (List.forall₂_same.mpr fun _ _ => rfl)⟩

theorem list_eq_ok_iff_arrayOf {decode : Value → Except ε ρ}
    {encoded : ρ → List (String × Value) → Prop} {records : List ρ}
    (hdecode : ∀ item ∈ v.items, ∀ r,
      decode item = .ok r ↔ ∃ entries, item = .table entries ∧ encoded r entries) :
    D.list decode v = .ok records ↔ v.ArrayOf encoded records := by
  rw [hD.list]
  cases v with
  | array items =>
    rw [arrayOf_array_iff]
    refine Iff.trans ?_ (forall₂_congr_left hdecode)
    simp
  | _ => simp [Value.ArrayOf]

omit hD in
/-- A record that is no array is decoded from the tables that spell it out. -/
theorem record_eq_ok_iff {decode : Value → Except ε ρ}
    {encoded : ρ → List (String × Value) → Prop} {r : ρ} (harray : v.isArray = false)
    (hscalar : v.IsScalar → ∃ fault, decode v = .error fault)
    (htable : ∀ entries, v = .table entries →
      (decode (.table entries) = .ok r ↔ encoded r entries)) :
    decode v = .ok r ↔ ∃ entries, v = .table entries ∧ encoded r entries := by
  obtain hv | ⟨entries, rfl⟩ := Value.isScalar_or_eq_table harray
  · obtain ⟨fault, hfault⟩ := hscalar hv
    simp [hfault, hv.1]
  · simp [htable entries rfl]

/-! ### Edges -/

theorem edge_encodedBy_iff {e : EdgeEntry} : e.EncodedBy entries ↔
    (∀ x ∈ entries, ∃ f ∈ D.edgeFields, f.key = x.1) ∧
      ∀ f ∈ D.edgeFields, f.Agrees (entries.lookup f.key) e := by
  have hpeek : ∀ v ∈ entries.lookup "peek", ∀ b, D.boolean v = .ok b ↔ v = .boolean b :=
    fun _ _ _ => hD.boolean
  simp only [← List.mem_map, D.map_key_edgeFields]
  simp only [edgeFields, List.forall_mem_cons, Field.key,
    Field.agrees_required_iff hD.string, Field.agrees_optional_iff hD.string,
    Field.agrees_optional_iff hD.bytes, Field.agrees_optional_iff hD.word,
    Field.agrees_defaulted_iff hpeek]
  constructor
  · rintro ⟨hknown, htarget, hliteral, hanyOf, hbytes, hcode, hpeek⟩
    exact ⟨hknown, htarget, hliteral, hanyOf, hbytes, hcode, hpeek, by simp⟩
  · rintro ⟨hknown, htarget, hliteral, hanyOf, hbytes, hcode, hpeek, -⟩
    exact ⟨hknown, htarget, hliteral, hanyOf, hbytes, hcode, hpeek⟩

omit hD in
theorem edge_ext {e e' : EdgeEntry} (h : ∀ f ∈ D.edgeFields, f.Same e e') : e = e' := by
  cases e
  cases e'
  simp_all [edgeFields, Field.Same]

/-- A table is decoded into the edge entry that it spells out. -/
theorem edge_table_eq_ok_iff (hkeys : (entries.map (·.1)).Nodup) {e : EdgeEntry} :
    D.edge (.table entries) = .ok e ↔ e.EncodedBy entries :=
  (hD.edge.eq_ok_iff hkeys fun _ => edge_ext).trans hD.edge_encodedBy_iff.symm

theorem edge_eq_ok_iff (harray : v.isArray = false) (hv : v.Distinct) {e : EdgeEntry} :
    D.edge v = .ok e ↔ ∃ entries, v = .table entries ∧ e.EncodedBy entries := by
  refine record_eq_ok_iff harray hD.edge_scalar ?_
  rintro entries rfl
  exact hD.edge_table_eq_ok_iff (Value.distinct_table_iff.mp hv).1

/-! ### Nodes -/

theorem node_encodedBy_iff (hplain : NodeEntry.Plain entries)
    (hentries : (Value.table entries).Distinct) {e : NodeEntry} : e.EncodedBy entries ↔
    (∀ x ∈ entries, ∃ f ∈ D.nodeFields, f.key = x.1) ∧
      ∀ f ∈ D.nodeFields, f.Agrees (entries.lookup f.key) e := by
  have hedges : ∀ v ∈ entries.lookup "edges", ∀ edges,
      D.list D.edge v = .ok edges ↔ v.ArrayOf EdgeEntry.EncodedBy edges := by
    intro v hv edges
    refine hD.list_eq_ok_iff_arrayOf fun item hitem _ => ?_
    exact hD.edge_eq_ok_iff (hplain item (mem_recordsUnder hv hitem))
      ((hentries.lookup hv).item hitem)
  simp only [← List.mem_map, D.map_key_nodeFields]
  simp only [nodeFields, List.forall_mem_cons, Field.key, Field.agrees_required_iff hD.string,
    Field.agrees_optional_iff hD.string, Field.agrees_defaulted_iff hedges]
  constructor
  · rintro ⟨hknown, hid, hname, hedges, hotherwise, hskipTo⟩
    exact ⟨hknown, hid, hname, hedges, hotherwise, hskipTo, by simp⟩
  · rintro ⟨hknown, hid, hname, hedges, hotherwise, hskipTo, -⟩
    exact ⟨hknown, hid, hname, hedges, hotherwise, hskipTo⟩

omit hD in
theorem node_ext {e e' : NodeEntry} (h : ∀ f ∈ D.nodeFields, f.Same e e') : e = e' := by
  cases e
  cases e'
  simp_all [nodeFields, Field.Same]

theorem node_table_eq_ok_iff (hplain : NodeEntry.Plain entries)
    (hentries : (Value.table entries).Distinct) {e : NodeEntry} :
    D.node (.table entries) = .ok e ↔ e.EncodedBy entries :=
  (hD.node.eq_ok_iff (Value.distinct_table_iff.mp hentries).1 fun _ => node_ext).trans
    (hD.node_encodedBy_iff hplain hentries).symm

theorem node_eq_ok_iff (harray : v.isArray = false) (hplain : NodeEntry.Plain v.entries)
    (hv : v.Distinct) {e : NodeEntry} :
    D.node v = .ok e ↔ ∃ entries, v = .table entries ∧ e.EncodedBy entries := by
  refine record_eq_ok_iff harray hD.node_scalar ?_
  rintro entries rfl
  exact hD.node_table_eq_ok_iff hplain hv

/-! ### Descriptions -/

theorem description_encodedBy_iff (hplain : Description.Plain entries)
    (hentries : (Value.table entries).Distinct) {d : Description} : d.EncodedBy entries ↔
    (∀ x ∈ entries, ∃ f ∈ D.descriptionFields, f.key = x.1) ∧
      ∀ f ∈ D.descriptionFields, f.Agrees (entries.lookup f.key) d := by
  have hnodes : ∀ v ∈ entries.lookup "nodes", ∀ nodes,
      D.list D.node v = .ok nodes ↔ v.ArrayOf NodeEntry.EncodedBy nodes := by
    intro v hv nodes
    refine hD.list_eq_ok_iff_arrayOf fun item hitem _ => ?_
    obtain ⟨harray, hitemPlain⟩ := hplain item (mem_recordsUnder hv hitem)
    exact hD.node_eq_ok_iff harray hitemPlain ((hentries.lookup hv).item hitem)
  simp only [← List.mem_map, D.map_key_descriptionFields]
  simp only [descriptionFields, List.forall_mem_cons, Field.key,
    Field.agrees_required_iff hD.string, Field.agrees_defaulted_iff hnodes]
  constructor
  · rintro ⟨hknown, hroot, hnodes⟩
    exact ⟨hknown, hroot, hnodes, by simp⟩
  · rintro ⟨hknown, hroot, hnodes, -⟩
    exact ⟨hknown, hroot, hnodes⟩

omit hD in
theorem description_ext {d d' : Description} (h : ∀ f ∈ D.descriptionFields, f.Same d d') :
    d = d' := by
  cases d
  cases d'
  simp_all [descriptionFields, Field.Same]

/-- A table is decoded into the description that it spells out. -/
theorem description_eq_ok_iff (hplain : Description.Plain entries)
    (hentries : (Value.table entries).Distinct) {d : Description} :
    D.description entries = .ok d ↔ d.EncodedBy entries :=
  (hD.description.eq_ok_iff (Value.distinct_table_iff.mp hentries).1
    fun _ => description_ext).trans (hD.description_encodedBy_iff hplain hentries).symm

end Decoders.Lawful
end StateDiagram
