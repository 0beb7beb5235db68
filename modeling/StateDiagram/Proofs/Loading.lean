import Mathlib
import StateDiagram.Proofs.Encodings
import StateDiagram.Proofs.StandardDecoders

/-! Loading drops nothing. Whatever keeps the laws of decoders loads from a tree the descriptions
that it spells out, so that a key or a value that says nothing about the description is refused
wherever it stands, and two trees with one description differ in nothing but the order of keys and
in the defaults that they write out (`Description.loads_exactly_encodings`). -/
namespace StateDiagram

open Toml (Value)

/-! ### Keys and values that are refused -/

/-- A key of an edge entry with a value of the type of its field. -/
inductive EdgeEntry.Fits : String × Value → Prop
  | target (id : String) : Fits ("target", .string id)
  | literal (text : String) : Fits ("match", .string text)
  | anyOf (text : String) : Fits ("any_of", .string text)
  | bytes {items : List Value} (h : ∀ item ∈ items, ∃ n, item = .integer n ∧ 0 ≤ n ∧ n ≤ 255) :
    Fits ("bytes", .array items)
  | code {n : Int} (h : -2147483648 ≤ n ∧ n ≤ 2147483647) : Fits ("code", .integer n)
  | peek (b : Bool) : Fits ("peek", .boolean b)

inductive NodeEntry.Fits : String × Value → Prop
  | id (id : String) : Fits ("id", .string id)
  | name (text : String) : Fits ("name", .string text)
  | edges {items : List Value}
      (h : ∀ item ∈ items, ∃ entries, item = .table entries ∧ ∀ x ∈ entries, EdgeEntry.Fits x) :
    Fits ("edges", .array items)
  | otherwise (id : String) : Fits ("otherwise", .string id)
  | skipTo (id : String) : Fits ("skip_to", .string id)

/-- A key of a description with a value of the type of its field, down to the edges of nodes. -/
inductive Description.Fits : String × Value → Prop
  | root (id : String) : Fits ("root", .string id)
  | nodes {items : List Value}
      (h : ∀ item ∈ items, ∃ entries, item = .table entries ∧ ∀ x ∈ entries, NodeEntry.Fits x) :
    Fits ("nodes", .array items)

theorem EdgeEntry.Fits.mem_fieldNames {x : String × Value} (h : EdgeEntry.Fits x) :
    x.1 ∈ EdgeEntry.fieldNames := by
  cases h <;> simp [EdgeEntry.fieldNames]

theorem NodeEntry.Fits.edge {items : List Value} {entries : List (String × Value)}
    (h : NodeEntry.Fits ("edges", .array items)) (hitem : .table entries ∈ items) :
    ∀ x ∈ entries, EdgeEntry.Fits x := by
  generalize hx : ("edges", Value.array items) = x at h
  cases h with
  | edges hfields =>
    cases hx
    obtain ⟨_, htable, hfields⟩ := hfields _ hitem
    cases htable
    exact hfields
  | _ => simp at hx

theorem Description.Fits.node {items : List Value} {entries : List (String × Value)}
    (h : Description.Fits ("nodes", .array items)) (hitem : .table entries ∈ items) :
    ∀ x ∈ entries, NodeEntry.Fits x := by
  generalize hx : ("nodes", Value.array items) = x at h
  cases h with
  | nodes hfields =>
    cases hx
    obtain ⟨_, htable, hfields⟩ := hfields _ hitem
    cases htable
    exact hfields
  | root => simp at hx

theorem Toml.Value.ArrayOf.exists_items {α : Type} {encoded : α → List (String × Value) → Prop}
    {records : List α} {v : Value} (h : v.ArrayOf encoded records) : ∃ items, v = .array items ∧
      ∀ item ∈ items, ∃ entries a, item = .table entries ∧ encoded a entries := by
  obtain ⟨tables, rfl, hall⟩ := h
  refine ⟨_, rfl, fun item hitem => ?_⟩
  obtain ⟨entries, hentries, rfl⟩ := List.mem_map.mp hitem
  obtain ⟨a, _, ha⟩ := exists_of_forall₂_of_mem_right hall hentries
  exact ⟨entries, a, rfl, ha⟩

section Fits

variable {entries : List (String × Value)}

theorem EdgeEntry.EncodedBy.fits {e : EdgeEntry} (he : e.EncodedBy entries)
    (hkeys : (entries.map (·.1)).Nodup) : ∀ x ∈ entries, EdgeEntry.Fits x := by
  rintro ⟨key, v⟩ hx
  have hlookup := (Toml.lookup_eq_some_iff_mem hkeys).mpr hx
  have hknown : key ∈ fieldNames := he.known _ hx
  simp only [fieldNames, List.mem_cons, List.not_mem_nil, or_false] at hknown
  rcases hknown with rfl | rfl | rfl | rfl | rfl | rfl
  · cases he.target.symm.trans hlookup
    exact .target _
  · obtain ⟨text, _, rfl⟩ := Option.map_eq_some_iff.mp (he.literal.symm.trans hlookup)
    exact .literal text
  · obtain ⟨text, _, rfl⟩ := Option.map_eq_some_iff.mp (he.anyOf.symm.trans hlookup)
    exact .anyOf text
  · obtain ⟨value, _, rfl⟩ := Option.map_eq_some_iff.mp (he.bytes.symm.trans hlookup)
    refine .bytes fun item hitem => ?_
    obtain ⟨b, _, rfl⟩ := List.mem_map.mp hitem
    have hb := b.toNat_lt
    exact ⟨b.toNat, rfl, by omega, by omega⟩
  · obtain ⟨value, _, rfl⟩ := Option.map_eq_some_iff.mp (he.code.symm.trans hlookup)
    have hle := value.le_toInt
    have hlt := value.toInt_lt
    exact .code ⟨by omega, by omega⟩
  · have hpeek := he.peek
    rw [hlookup, defaulted_some_iff] at hpeek
    cases hpeek
    exact .peek e.peek

theorem NodeEntry.EncodedBy.fits {e : NodeEntry} (he : e.EncodedBy entries)
    (hentries : (Value.table entries).Distinct) : ∀ x ∈ entries, NodeEntry.Fits x := by
  obtain ⟨hkeys, hvalues⟩ := Value.distinct_table_iff.mp hentries
  rintro ⟨key, v⟩ hx
  have hlookup := (Toml.lookup_eq_some_iff_mem hkeys).mpr hx
  have hknown : key ∈ fieldNames := he.known _ hx
  simp only [fieldNames, List.mem_cons, List.not_mem_nil, or_false] at hknown
  rcases hknown with rfl | rfl | rfl | rfl | rfl
  · cases he.id.symm.trans hlookup
    exact .id _
  · obtain ⟨text, _, rfl⟩ := Option.map_eq_some_iff.mp (he.name.symm.trans hlookup)
    exact .name text
  · have hedges := he.edges
    rw [hlookup, defaulted_some_iff] at hedges
    obtain ⟨items, rfl, hitems⟩ := hedges.exists_items
    refine .edges fun item hitem => ?_
    obtain ⟨inner, edge, rfl, hedge⟩ := hitems item hitem
    have hinner : (Value.table inner).Distinct := (hvalues _ hx).item hitem
    exact ⟨inner, rfl, hedge.fits (Value.distinct_table_iff.mp hinner).1⟩
  · obtain ⟨id, _, rfl⟩ := Option.map_eq_some_iff.mp (he.otherwise.symm.trans hlookup)
    exact .otherwise id
  · obtain ⟨id, _, rfl⟩ := Option.map_eq_some_iff.mp (he.skipTo.symm.trans hlookup)
    exact .skipTo id

theorem Description.EncodedBy.fits {d : Description} (hd : d.EncodedBy entries)
    (hentries : (Value.table entries).Distinct) : ∀ x ∈ entries, Description.Fits x := by
  obtain ⟨hkeys, hvalues⟩ := Value.distinct_table_iff.mp hentries
  rintro ⟨key, v⟩ hx
  have hlookup := (Toml.lookup_eq_some_iff_mem hkeys).mpr hx
  have hknown : key ∈ fieldNames := hd.known _ hx
  simp only [fieldNames, List.mem_cons, List.not_mem_nil, or_false] at hknown
  rcases hknown with rfl | rfl
  · cases hd.root.symm.trans hlookup
    exact .root _
  · have hnodes := hd.nodes
    rw [hlookup, defaulted_some_iff] at hnodes
    obtain ⟨items, rfl, hitems⟩ := hnodes.exists_items
    refine .nodes fun item hitem => ?_
    obtain ⟨inner, node, rfl, hnode⟩ := hitems item hitem
    exact ⟨inner, rfl, hnode.fits ((hvalues _ hx).item hitem)⟩

end Fits

/-! ### Written-out defaults and the order of keys -/

/-- Values that differ in nothing but the order of the keys of their tables. -/
inductive Toml.Value.Reordered : Value → Value → Prop
  | same (v : Value) : Reordered v v
  | array {xs ys : List Value} (h : List.Forall₂ Reordered xs ys) :
    Reordered (.array xs) (.array ys)
  | table {xs ys : List (String × Value)} (hkeys : (xs.map (·.1)).Perm (ys.map (·.1)))
      (hvalues : ∀ x ∈ xs, ∀ y ∈ ys, x.1 = y.1 → Reordered x.2 y.2) :
    Reordered (.table xs) (.table ys)

def Toml.Value.mapTables (change : List (String × Value) → List (String × Value)) : Value → Value
  | .array items => .array (items.map fun
    | .table entries => .table (change entries)
    | item => item)
  | v => v

def changeRecords (key : String) (change : List (String × Value) → List (String × Value))
    (entries : List (String × Value)) : List (String × Value) :=
  entries.map fun x => if x.1 = key then (x.1, x.2.mapTables change) else x

/-- The table with a value for a key that it does not have. -/
def writeDefault (key : String) (v : Value) (entries : List (String × Value)) :
    List (String × Value) :=
  if (entries.lookup key).isNone then entries ++ [(key, v)] else entries

def EdgeEntry.writtenOut (entries : List (String × Value)) : List (String × Value) :=
  writeDefault "peek" (.boolean false) entries

def NodeEntry.writtenOut (entries : List (String × Value)) : List (String × Value) :=
  writeDefault "edges" (.array []) (changeRecords "edges" EdgeEntry.writtenOut entries)

/-- The table of a description with all defaults. -/
def Description.writtenOut (entries : List (String × Value)) : List (String × Value) :=
  writeDefault "nodes" (.array []) (changeRecords "nodes" NodeEntry.writtenOut entries)

section WrittenOut

variable {key other : String} {change : List (String × Value) → List (String × Value)}
  {v : Value} {entries xs ys : List (String × Value)}

theorem lookup_writeDefault (key : String) (v : Value) (entries : List (String × Value)) :
    (writeDefault key v entries).lookup key = some ((entries.lookup key).getD v) := by
  rw [writeDefault]
  cases h : entries.lookup key <;> simp [h, List.lookup_append]

theorem lookup_writeDefault_of_ne (h : other ≠ key) :
    (writeDefault key v entries).lookup other = entries.lookup other := by
  rw [writeDefault]
  split
  · simp [List.lookup_append, List.lookup_cons, beq_false_of_ne h]
  · rfl

theorem nodup_writeDefault (h : (entries.map (·.1)).Nodup) :
    ((writeDefault key v entries).map (·.1)).Nodup := by
  rw [writeDefault]
  split
  next hnone =>
    have hnew := Toml.not_mem_keys_of_lookup_eq_none (Option.isNone_iff_eq_none.mp hnone)
    simpa using h.concat hnew
  · exact h

theorem lookup_changeRecords (key : String)
    (change : List (String × Value) → List (String × Value)) (entries : List (String × Value)) :
    (changeRecords key change entries).lookup key =
      (entries.lookup key).map (·.mapTables change) := by
  induction entries with
  | nil => rfl
  | cons x entries ih =>
    rw [changeRecords, List.map_cons, ← changeRecords, List.lookup_cons, List.lookup_cons]
    by_cases h : x.1 = key
    · simp [h]
    · simp [h, beq_false_of_ne (Ne.symm h), ih]

theorem lookup_changeRecords_of_ne (h : other ≠ key) :
    (changeRecords key change entries).lookup other = entries.lookup other := by
  induction entries with
  | nil => rfl
  | cons x entries ih =>
    rw [changeRecords, List.map_cons, ← changeRecords, List.lookup_cons, List.lookup_cons]
    by_cases hx : x.1 = key
    · simp [hx, beq_false_of_ne h, ih]
    · simp [hx, ih]

theorem map_fst_changeRecords :
    (changeRecords key change entries).map (·.1) = entries.map (·.1) := by
  rw [changeRecords, List.map_map]
  apply List.map_congr_left
  intro x _
  by_cases h : x.1 = key <;> simp [h]

/-- Tables with unique keys differ in the order of keys alone if this holds of the values of one
key, and if under any other key the same is found. -/
theorem reordered_of_lookup (hxs : (xs.map (·.1)).Nodup) (hys : (ys.map (·.1)).Nodup) {v w : Value}
    (hv : xs.lookup key = some v) (hw : ys.lookup key = some w) (hvw : v.Reordered w)
    (h : ∀ other ≠ key, xs.lookup other = ys.lookup other) :
    (Value.table xs).Reordered (.table ys) := by
  refine .table ((List.perm_ext_iff_of_nodup hxs hys).mpr fun other => ?_) ?_
  · rw [← Toml.isSome_lookup_iff, ← Toml.isSome_lookup_iff]
    by_cases hother : other = key
    · rw [hother, hv, hw]
      simp
    · rw [h other hother]
  · rintro ⟨other, a⟩ hx ⟨_, b⟩ hy rfl
    have ha := (Toml.lookup_eq_some_iff_mem hxs).mpr hx
    have hb := (Toml.lookup_eq_some_iff_mem hys).mpr hy
    by_cases hother : other = key
    · subst hother
      cases hv.symm.trans ha
      cases hw.symm.trans hb
      exact hvw
    · cases (ha.symm.trans (h other hother)).trans hb
      exact .same a

end WrittenOut

/-! ### Trees with the same description -/

theorem Defaulted.getD {α : Type} {default a : α} {written : α → Value → Prop}
    {o : Option Value} (h : Defaulted default written a o) {v : Value} (hv : written default v) :
    written a (o.getD v) := by
  cases h with
  | omitted => exact hv
  | given ha => exact ha

/-- Under a key that is no field nothing is found, so only the fields need to be compared. -/
theorem lookup_congr_of_known {names : List String} {xs ys : List (String × Value)} {key : String}
    (hxs : ∀ x ∈ xs, x.1 ∈ names) (hys : ∀ y ∈ ys, y.1 ∈ names)
    (h : ∀ name ∈ names, name ≠ key → xs.lookup name = ys.lookup name) {other : String}
    (hother : other ≠ key) : xs.lookup other = ys.lookup other := by
  have hnone {entries : List (String × Value)} (hknown : ∀ x ∈ entries, x.1 ∈ names)
      (hnew : other ∉ names) : entries.lookup other = none := by
    rw [List.lookup_eq_none_iff]
    intro x hx
    have hne : other ≠ x.1 := fun he => hnew (he ▸ hknown x hx)
    simpa using hne
  by_cases hname : other ∈ names
  · exact h other hname hother
  · rw [hnone hxs hname, hnone hys hname]

theorem forall₂_of_common {α β γ : Type} {R : α → β → Prop} {S : α → γ → Prop} {T : β → γ → Prop}
    {as : List α} {bs : List β} {cs : List γ} (hR : List.Forall₂ R as bs)
    (hS : List.Forall₂ S as cs) (h : ∀ a, ∀ b ∈ bs, ∀ c ∈ cs, R a b → S a c → T b c) :
    List.Forall₂ T bs cs := by
  induction hR generalizing cs with
  | nil =>
    cases hS
    exact .nil
  | @cons a b as bs hab _ ih =>
    obtain ⟨c, cs, hac, hrest, rfl⟩ := List.forall₂_cons_left_iff.mp hS
    refine .cons (h a b List.mem_cons_self c List.mem_cons_self hab hac) (ih hrest ?_)
    intro a' b' hb' c' hc'
    exact h a' b' (List.mem_cons_of_mem b hb') c' (List.mem_cons_of_mem c hc')

theorem Toml.Value.ArrayOf.nil {α : Type} (encoded : α → List (String × Value) → Prop) :
    (Value.array []).ArrayOf encoded [] :=
  ⟨[], rfl, .nil⟩

/-- Arrays that spell out the same records differ in the order of keys alone, with a change made
to their tables, if this holds of any two tables that spell out the same record. -/
theorem reordered_mapTables {α : Type} {encoded : α → List (String × Value) → Prop}
    {change : List (String × Value) → List (String × Value)} {records : List α} {v w : Value}
    (hv : v.ArrayOf encoded records) (hw : w.ArrayOf encoded records)
    (h : ∀ a xs ys, Value.table xs ∈ v.items → Value.table ys ∈ w.items → encoded a xs →
      encoded a ys → (Value.table (change xs)).Reordered (.table (change ys))) :
    (v.mapTables change).Reordered (w.mapTables change) := by
  obtain ⟨vtables, rfl, hvtables⟩ := hv
  obtain ⟨wtables, rfl, hwtables⟩ := hw
  refine .array ?_
  simp only [List.map_map, List.forall₂_map_left_iff, List.forall₂_map_right_iff]
  exact forall₂_of_common hvtables hwtables fun a xs hxs ys hys =>
    h a xs ys (List.mem_map_of_mem hxs) (List.mem_map_of_mem hys)

theorem lookup_writtenOut_records (key : String)
    (change : List (String × Value) → List (String × Value)) (entries : List (String × Value)) :
    (writeDefault key (.array []) (changeRecords key change entries)).lookup key =
      some (((entries.lookup key).getD (.array [])).mapTables change) := by
  rw [lookup_writeDefault, lookup_changeRecords]
  cases entries.lookup key <;> rfl

theorem distinct_lookup_getD {entries : List (String × Value)} (h : (Value.table entries).Distinct)
    (key : String) : ((entries.lookup key).getD (.array [])).Distinct := by
  cases hv : entries.lookup key with
  | none => exact .array (by simp)
  | some v => exact (Value.distinct_table_iff.mp h).2 _ (Toml.mem_of_lookup_eq_some hv)

/-- Tables that spell out the same list of records under a key, and agree under the others, differ
in the order of keys alone once their defaults and those of the records are written out. -/
theorem reordered_records {α : Type} {encoded : α → List (String × Value) → Prop}
    {change : List (String × Value) → List (String × Value)} {key : String} {records : List α}
    {xs ys : List (String × Value)} (hxs : (Value.table xs).Distinct)
    (hys : (Value.table ys).Distinct)
    (hx : Defaulted [] (Value.ArrayOf encoded) records (xs.lookup key))
    (hy : Defaulted [] (Value.ArrayOf encoded) records (ys.lookup key))
    (hsame : ∀ other ≠ key, xs.lookup other = ys.lookup other)
    (hrecord : ∀ a xs ys, (Value.table xs).Distinct → (Value.table ys).Distinct → encoded a xs →
      encoded a ys → (Value.table (change xs)).Reordered (.table (change ys))) :
    (Value.table (writeDefault key (.array []) (changeRecords key change xs))).Reordered
      (.table (writeDefault key (.array []) (changeRecords key change ys))) := by
  refine reordered_of_lookup (nodup_writeDefault ?_) (nodup_writeDefault ?_)
    (lookup_writtenOut_records key change xs) (lookup_writtenOut_records key change ys) ?_
    fun other hother => ?_
  · rw [map_fst_changeRecords]
    exact (Value.distinct_table_iff.mp hxs).1
  · rw [map_fst_changeRecords]
    exact (Value.distinct_table_iff.mp hys).1
  · refine reordered_mapTables (hx.getD (.nil encoded)) (hy.getD (.nil encoded))
      fun a vs ws hvs hws => hrecord a vs ws ?_ ?_
    · exact (distinct_lookup_getD hxs key).item hvs
    · exact (distinct_lookup_getD hys key).item hws
  · rw [lookup_writeDefault_of_ne hother, lookup_writeDefault_of_ne hother,
      lookup_changeRecords_of_ne hother, lookup_changeRecords_of_ne hother, hsame other hother]

namespace EdgeEntry

variable {e : EdgeEntry} {xs ys : List (String × Value)} {key : String}

theorem EncodedBy.lookup_congr (hx : e.EncodedBy xs) (hy : e.EncodedBy ys)
    (hkey : key ≠ "peek") : xs.lookup key = ys.lookup key := by
  refine lookup_congr_of_known hx.known hy.known ?_ hkey
  simp [EdgeEntry.fieldNames, hx.target, hy.target, hx.literal, hy.literal, hx.anyOf, hy.anyOf,
    hx.bytes, hy.bytes, hx.code, hy.code]

theorem EncodedBy.reordered (hx : e.EncodedBy xs) (hy : e.EncodedBy ys)
    (hxs : (xs.map (·.1)).Nodup) (hys : (ys.map (·.1)).Nodup) :
    (Value.table (writtenOut xs)).Reordered (.table (writtenOut ys)) := by
  refine reordered_of_lookup (nodup_writeDefault hxs) (nodup_writeDefault hys)
    (lookup_writeDefault "peek" _ xs) (lookup_writeDefault "peek" _ ys) ?_ fun key hkey => ?_
  · rw [hx.peek.getD rfl, hy.peek.getD rfl]
    exact .same _
  · rw [writtenOut, writtenOut, lookup_writeDefault_of_ne hkey, lookup_writeDefault_of_ne hkey,
      hx.lookup_congr hy hkey]

end EdgeEntry

namespace NodeEntry

variable {e : NodeEntry} {xs ys : List (String × Value)} {key : String}

theorem EncodedBy.lookup_congr (hx : e.EncodedBy xs) (hy : e.EncodedBy ys)
    (hkey : key ≠ "edges") : xs.lookup key = ys.lookup key := by
  refine lookup_congr_of_known hx.known hy.known ?_ hkey
  simp [NodeEntry.fieldNames, hx.id, hy.id, hx.name, hy.name, hx.otherwise, hy.otherwise,
    hx.skipTo, hy.skipTo]

theorem EncodedBy.reordered (hx : e.EncodedBy xs) (hy : e.EncodedBy ys)
    (hxs : (Value.table xs).Distinct) (hys : (Value.table ys).Distinct) :
    (Value.table (writtenOut xs)).Reordered (.table (writtenOut ys)) := by
  apply reordered_records hxs hys hx.edges hy.edges
  · exact fun key hkey => hx.lookup_congr hy hkey
  · intro edge vs ws hvs hws hv hw
    exact hv.reordered hw (Value.distinct_table_iff.mp hvs).1 (Value.distinct_table_iff.mp hws).1

end NodeEntry

namespace Description

variable {d : Description} {entries xs ys : List (String × Value)} {key : String}

theorem EncodedBy.lookup_congr (hx : d.EncodedBy xs) (hy : d.EncodedBy ys)
    (hkey : key ≠ "nodes") : xs.lookup key = ys.lookup key := by
  refine lookup_congr_of_known hx.known hy.known ?_ hkey
  simp [Description.fieldNames, hx.root, hy.root]

/-- Trees of the same description differ in nothing but the order of keys, once the defaults that
may be left out are written out. -/
theorem EncodedBy.reordered (hx : d.EncodedBy xs) (hy : d.EncodedBy ys)
    (hxs : (Value.table xs).Distinct) (hys : (Value.table ys).Distinct) :
    (Value.table (writtenOut xs)).Reordered (.table (writtenOut ys)) := by
  apply reordered_records hxs hys hx.nodes hy.nodes
  · exact fun key hkey => hx.lookup_congr hy hkey
  · intro node vs ws hvs hws hv hw
    exact hv.reordered hw hvs hws

theorem ofText_eq_ok_iff {read : Reader} {text : String} :
    ofText read text = .ok d ↔ read text = .ok d :=
  mapError_eq_ok_iff

theorem error_of_not_fits {ε : Type} {loaded : Except ε Description}
    (hentries : (Value.table entries).Distinct) (h : ∀ d, loaded = .ok d ↔ d.EncodedBy entries)
    {x : String × Value} (hx : x ∈ entries) (hfits : ¬ Fits x) :
    ∃ fault, loaded = .error fault := by
  cases loaded with
  | error fault => exact ⟨fault, rfl⟩
  | ok d =>
    have hd : d.EncodedBy entries := (h d).mp rfl
    exact absurd (hd.fits hentries x hx) hfits

theorem ofText_eq_ok_iff_encodedBy {ε : Type} {D : Decoders ε} (hD : D.Lawful) {text : String}
    (h : D.parse text = some entries) (hplain : Plain entries) :
    ofText D.read text = .ok d ↔ d.EncodedBy entries := by
  rw [ofText_eq_ok_iff, hD.read, ← hD.description_eq_ok_iff hplain (hD.parse h)]
  simp [h]

/-- A text is loaded exactly if its tree spells out a description, which is then the one that is
loaded. So a key that is not known and a value that has not the type of its field are refused at any
depth, and trees with the same description differ in the order of keys and in written-out defaults
alone. The same holds of all trees with unique keys, whether or not a text has them. -/
theorem loads_exactly_encodings {ε : Type} (D : Decoders ε) (hD : D.Lawful) :
    (∀ text entries, D.parse text = some entries → Plain entries →
      (∀ d, ofText D.read text = .ok d ↔ d.EncodedBy entries) ∧
      (∀ x ∈ entries, ¬ Fits x → ∃ failure, ofText D.read text = .error failure) ∧
      ∀ d text' entries', D.parse text' = some entries' → Plain entries' →
        ofText D.read text = .ok d → ofText D.read text' = .ok d →
          (Value.table (writtenOut entries)).Reordered (.table (writtenOut entries'))) ∧
    ∀ entries, (Value.table entries).Distinct → Plain entries →
      (∀ d, D.description entries = .ok d ↔ d.EncodedBy entries) ∧
      (∀ x ∈ entries, ¬ Fits x → ∃ fault, D.description entries = .error fault) ∧
      ∀ d entries', (Value.table entries').Distinct → Plain entries' →
        D.description entries = .ok d → D.description entries' = .ok d →
          (Value.table (writtenOut entries)).Reordered (.table (writtenOut entries')) := by
  constructor
  · intro text entries hparse hplain
    have htext (d : Description) : ofText D.read text = .ok d ↔ d.EncodedBy entries :=
      ofText_eq_ok_iff_encodedBy hD hparse hplain
    refine ⟨htext, fun x => error_of_not_fits (hD.parse hparse) htext, ?_⟩
    intro d text' entries' hparse' hplain' hd hd'
    have hencoded' := (ofText_eq_ok_iff_encodedBy hD hparse' hplain').mp hd'
    exact ((htext d).mp hd).reordered hencoded' (hD.parse hparse) (hD.parse hparse')
  · intro entries hentries hplain
    have htree (d : Description) : D.description entries = .ok d ↔ d.EncodedBy entries :=
      hD.description_eq_ok_iff hplain hentries
    refine ⟨htree, fun x => error_of_not_fits hentries htree, ?_⟩
    intro d entries' hentries' hplain' hd hd'
    have hencoded' := (hD.description_eq_ok_iff hplain' hentries').mp hd'
    exact ((htree d).mp hd).reordered hencoded' hentries hentries'

/-- Every key comes last that could come first, and defaults are left out. -/
def backToFront : String :=
  "nodes = [\x7b edges = [\x7b code = -1, target = 'a' \x7d], id = 'a' \x7d]\nroot = 'a'\n"

def inFull : String :=
  "root = 'a'\n\n[[nodes]]\nid = 'a'\n\n[[nodes.edges]]\ntarget = 'a'\ncode = -1\npeek = false\n"

def misspelt : String :=
  "root = 'a'\n\n[[nodes]]\nid = 'a'\nedges = [\x7b target = 'a', cod = -1 \x7d]\n"

def backToFrontTree : List (String × Value) :=
  [("nodes", .array [.table
    [("edges", .array [.table [("code", .integer (-1)), ("target", .string "a")]]),
      ("id", .string "a")]]),
    ("root", .string "a")]

def inFullTree : List (String × Value) :=
  [("root", .string "a"),
    ("nodes", .array [.table
      [("id", .string "a"),
        ("edges", .array [.table
          [("target", .string "a"), ("code", .integer (-1)), ("peek", .boolean false)]])]])]

def misspeltTree : List (String × Value) :=
  [("root", .string "a"),
    ("nodes", .array [.table
      [("id", .string "a"),
        ("edges", .array [.table [("target", .string "a"), ("cod", .integer (-1))]])]])]

def loop : Description :=
  ⟨"a", [⟨"a", none, [⟨"a", none, none, none, some (-1), false⟩], none, none⟩]⟩

theorem backToFront_loaded :
    ofText read backToFront = .ok loop ∧ ofText read inFull = .ok loop ∧
    (Value.table (writtenOut backToFrontTree)).Reordered (.table (writtenOut inFullTree)) ∧
    (∃ failure, ofText read misspelt = .error failure) ∧
    ∃ fault, decode misspeltTree = .error fault := by
  have hparse : Toml.parse backToFront = some backToFrontTree := by cbv
  have hparseFull : Toml.parse inFull = some inFullTree := by cbv
  have hparseMisspelt : Toml.parse misspelt = some misspeltTree := by cbv
  obtain ⟨htexts, htrees⟩ := loads_exactly_encodings standardDecoders standardDecoders_lawful
  obtain ⟨hload, -, hreordered⟩ := htexts backToFront backToFrontTree hparse (by decide)
  obtain ⟨hloadFull, -⟩ := htexts inFull inFullTree hparseFull (by decide)
  obtain ⟨-, hrefused, -⟩ := htexts misspelt misspeltTree hparseMisspelt (by decide)
  obtain ⟨-, hrefusedTree, -⟩ :=
    htrees misspeltTree (Toml.distinct_of_parse hparseMisspelt) (by decide)
  have hencoded : loop.EncodedBy backToFrontTree := {
    known := by decide
    root := rfl
    nodes := .given ⟨_, rfl, .cons {
      known := by decide
      id := rfl
      name := rfl
      edges := .given ⟨_, rfl, .cons {
        known := by decide
        target := rfl
        literal := rfl
        anyOf := rfl
        bytes := rfl
        code := rfl
        peek := .omitted } .nil⟩
      otherwise := rfl
      skipTo := rfl } .nil⟩ }
  have hdecodedFull : decode inFullTree = .ok loop := rfl
  have hencodedFull : loop.EncodedBy inFullTree :=
    ((htrees inFullTree (Toml.distinct_of_parse hparseFull) (by decide)).1 loop).mp hdecodedFull
  have hloaded : ofText read backToFront = .ok loop := (hload loop).mpr hencoded
  have hloadedFull : ofText read inFull = .ok loop := (hloadFull loop).mpr hencodedFull
  have hunfit : ¬ Fits ("nodes", (misspeltTree.lookup "nodes").getD .moment) := fun hnodes => by
    have hnode := hnodes.node List.mem_cons_self
    have hedge := (hnode _ (List.mem_cons_of_mem _ List.mem_cons_self)).edge List.mem_cons_self
    have hkey := (hedge _ (List.mem_cons_of_mem _ List.mem_cons_self)).mem_fieldNames
    exact absurd hkey (by decide)
  have hmem : ("nodes", (misspeltTree.lookup "nodes").getD .moment) ∈ misspeltTree :=
    List.mem_cons_of_mem _ List.mem_cons_self
  exact ⟨hloaded, hloadedFull,
    hreordered loop inFull inFullTree hparseFull (by decide) hloaded hloadedFull,
    hrefused _ hmem hunfit, hrefusedTree _ hmem hunfit⟩

end Description
end StateDiagram
