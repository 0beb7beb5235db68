import StateDiagram.Description.Decoding
import StateDiagram.Proofs.Attempts
import StateDiagram.Proofs.DecoderLaws

/-! The decoders of this library, and that they keep the laws of decoders. A table is decoded entry
by entry, and a record is put together from the decoded fields. -/
namespace StateDiagram

open Toml (Value)

/-! ### Values of one type -/

namespace Decode

theorem string_eq_ok_iff {v : Value} {s : String} : string v = .ok s ↔ v = .string s := by
  cases v <;> simp [string]

theorem boolean_eq_ok_iff {v : Value} {b : Bool} : boolean v = .ok b ↔ v = .boolean b := by
  cases v <;> simp [boolean]

theorem byte_eq_ok_iff {v : Value} {b : UInt8} : byte v = .ok b ↔ v = .integer b.toNat := by
  cases v with
  | integer n =>
    have hb := b.toNat_lt
    by_cases hn : 0 ≤ n ∧ n < 256
    · simp only [byte, hn, and_self, if_true, Except.ok.injEq, ← UInt8.toNat_inj,
        UInt8.toNat_ofNat', Value.integer.injEq]
      omega
    · simp only [byte, hn, if_false, reduceCtorEq, Value.integer.injEq, false_iff]
      omega
  | _ => simp [byte]

theorem word_eq_ok_iff {v : Value} {c : Int32} : word v = .ok c ↔ v = .integer c.toInt := by
  cases v with
  | integer n =>
    have hle := c.le_toInt
    have hlt := c.toInt_lt
    by_cases hn : -2147483648 ≤ n ∧ n < 2147483648
    · simp only [word, hn, and_self, if_true, Except.ok.injEq, ← Int32.toInt_inj,
        Int32.toInt_ofInt_of_le hn.1 hn.2, Value.integer.injEq]
    · simp only [word, hn, if_false, reduceCtorEq, Value.integer.injEq, false_iff]
      omega
  | _ => simp [word]

theorem list_eq_ok_iff {α : Type} {item : Value → Except ShapeFault α} {v : Value} {as : List α} :
    list item v = .ok as ↔
      ∃ items, v = .array items ∧ List.Forall₂ (fun x a => item x = .ok a) items as := by
  cases v <;> simp [list, mapM_eq_ok_iff]

theorem required_eq_ok_iff {α : Type} {name : String} {o : Option α} {a : α} :
    required name o = .ok a ↔ o = some a := by
  cases o <;> simp [required]

end Decode

theorem map_eq_ok_iff {α β ε : Type} {f : α → β} {x : Except ε α} {b : β} :
    x.map f = .ok b ↔ ∃ a, x = .ok a ∧ f a = b := by
  cases x <;> simp [Except.map]

def standardDecoders : Decoders ShapeFault where
  parse := Toml.parse
  string := Decode.string
  boolean := Decode.boolean
  byte := Decode.byte
  word := Decode.word
  list := Decode.list
  edge := EdgeEntry.decode
  node := NodeEntry.decode
  description := Description.decode
  read := Description.read

/-! ### Tables of fields -/

section Fields

variable {ε φ ρ α : Type} {readFrom : φ → String × Value → Prop} {get? : φ → Option α}
  {item : Value → Except ε α} {key : String} {decoded : List φ} {entries : List (String × Value)}
  {found : Option Value} {r : ρ}

theorem rel_findSome?_lookup
    (hget : ∀ f x, readFrom f x →
      Option.Rel (fun a v => item v = .ok a) (get? f) (if key = x.1 then some x.2 else none))
    (h : List.Forall₂ (fun x f => readFrom f x) entries decoded) :
    Option.Rel (fun a v => item v = .ok a) (decoded.findSome? get?) (entries.lookup key) := by
  induction h with
  | nil => exact .none
  | @cons x f entries decoded hf _ ih =>
    have hrel := hget f x hf
    rw [List.findSome?_cons, List.lookup_cons]
    by_cases hkey : key = x.1
    · rw [if_pos hkey] at hrel
      cases hget? : get? f with
      | none => rw [hget?] at hrel; cases hrel
      | some a => simpa [hkey, hget?] using hrel
    · rw [if_neg hkey] at hrel
      cases hget? : get? f with
      | none => simpa [beq_false_of_ne hkey] using ih
      | some a => rw [hget?] at hrel; cases hrel

theorem Field.agrees_required_of_rel {get : ρ → α} {o : Option α}
    (h : Option.Rel (fun a v => item v = .ok a) o found) (ho : o = some (get r)) :
    (required key get item).Agrees found r := by
  rw [ho] at h
  cases h with
  | some hok => exact ⟨_, rfl, hok⟩

theorem Field.exists_of_rel {get : ρ → α} {o : Option α}
    (h : Option.Rel (fun a v => item v = .ok a) o found)
    (hadmits : (required key get item).Admits found) : ∃ a, o = some a := by
  obtain ⟨v, hv, -⟩ := hadmits
  rw [hv] at h
  cases h
  exact ⟨_, rfl⟩

theorem Field.agrees_defaulted_of_rel {default : α} {get : ρ → α} {o : Option α}
    (h : Option.Rel (fun a v => item v = .ok a) o found) (ho : o.getD default = get r) :
    (defaulted key default get item).Agrees found r := by
  show Defaulted default _ (get r) found
  rw [← ho]
  cases h with
  | none => exact .omitted
  | some hok => exact .given hok

theorem Field.admits_required_some {get : ρ → α} {v : Value} :
    (required key get item).Admits (some v) ↔ ∃ a, item v = .ok a := by
  simp [Admits]

theorem Field.admits_optional_some {get : ρ → Option α} {v : Value} :
    (optional key get item).Admits (some v) ↔ ∃ a, item v = .ok a := by
  simp [Admits]

theorem Field.admits_defaulted_some {default : α} {get : ρ → α} {v : Value} :
    (defaulted key default get item).Admits (some v) ↔ ∃ a, item v = .ok a := by
  simp [Admits]

theorem exists_forall₂ {β : Type} {R : α → β → Prop} {xs : List α} (h : ∀ x ∈ xs, ∃ b, R x b) :
    ∃ bs, List.Forall₂ R xs bs := by
  induction xs with
  | nil => exact ⟨[], .nil⟩
  | cons x xs ih =>
    rw [List.forall_mem_cons] at h
    obtain ⟨b, hb⟩ := h.1
    obtain ⟨bs, hbs⟩ := ih h.2
    exact ⟨b :: bs, .cons hb hbs⟩

/-- A decoder that takes a table entry by entry is derived from the fields of its record if every
entry with a key of a field gives that field, and the record is put together from them. -/
theorem derives_of_entries {fields : List (Field ε ρ)} {decode : String × Value → Except ε φ}
    {ofFields : List φ → Except ε ρ}
    (hdecode : ∀ {x f}, decode x = .ok f ↔ readFrom f x)
    (hkey : ∀ {x f}, readFrom f x → ∃ g ∈ fields, g.key = x.1)
    (hread : ∀ v, ∀ g ∈ fields, g.Admits (some v) → ∃ f, readFrom f (g.key, v))
    (hagrees : ∀ {entries decoded r}, List.Forall₂ (fun x f => readFrom f x) entries decoded →
      ofFields decoded = .ok r → ∀ g ∈ fields, g.Agrees (entries.lookup g.key) r)
    (hcomplete : ∀ {entries decoded}, List.Forall₂ (fun x f => readFrom f x) entries decoded →
      (∀ g ∈ fields, g.Admits (entries.lookup g.key)) → ∃ r, ofFields decoded = .ok r) :
    Derives fields fun entries => (entries.mapM decode).bind ofFields := by
  have hmapM (entries : List (String × Value)) (decoded : List φ) :
      entries.mapM decode = .ok decoded ↔
        List.Forall₂ (fun x f => readFrom f x) entries decoded := by
    simp only [mapM_eq_ok_iff, hdecode]
  apply derives_of_agrees
  · rintro entries r ⟨-, hr⟩ x hx
    obtain ⟨decoded, hdecoded, -⟩ := bind_eq_ok_iff.mp hr
    obtain ⟨f, -, hf⟩ := exists_of_forall₂_of_mem_right (R := readFrom)
      (.flip ((hmapM entries decoded).mp hdecoded)) hx
    exact hkey hf
  · rintro entries r ⟨-, hr⟩
    obtain ⟨decoded, hdecoded, hof⟩ := bind_eq_ok_iff.mp hr
    exact hagrees ((hmapM entries decoded).mp hdecoded) hof
  · intro entries hkeys hknown hadmits
    obtain ⟨decoded, hdecoded⟩ := exists_forall₂ fun x hx => by
      obtain ⟨g, hg, hgx⟩ := hknown x hx
      have hlookup : entries.lookup g.key = some x.2 :=
        (Toml.lookup_eq_some_iff_mem hkeys).mpr (hgx ▸ hx)
      obtain ⟨f, hf⟩ := hread x.2 g hg (hlookup ▸ hadmits g hg)
      exact ⟨f, hgx ▸ hf⟩
    obtain ⟨r, hr⟩ := hcomplete hdecoded hadmits
    exact ⟨r, bind_eq_ok_iff.mpr ⟨decoded, (hmapM entries decoded).mpr hdecoded, hr⟩⟩

end Fields

/-! ### Edges -/

/-- The field was decoded from what stands under its key. -/
inductive EdgeField.ReadFrom : EdgeField → String × Value → Prop
  | target {v : Value} {id : String} (h : Decode.string v = .ok id) :
    ReadFrom (.target id) ("target", v)
  | literal {v : Value} {text : String} (h : Decode.string v = .ok text) :
    ReadFrom (.literal text) ("match", v)
  | anyOf {v : Value} {text : String} (h : Decode.string v = .ok text) :
    ReadFrom (.anyOf text) ("any_of", v)
  | bytes {v : Value} {value : List UInt8} (h : Decode.list Decode.byte v = .ok value) :
    ReadFrom (.bytes value) ("bytes", v)
  | code {v : Value} {value : Int32} (h : Decode.word v = .ok value) :
    ReadFrom (.code value) ("code", v)
  | peek {v : Value} {value : Bool} (h : Decode.boolean v = .ok value) :
    ReadFrom (.peek value) ("peek", v)

theorem EdgeField.decode_eq_ok_iff {x : String × Value} {f : EdgeField} :
    decode x = .ok f ↔ f.ReadFrom x := by
  constructor
  · intro h
    rw [decode.eq_def] at h
    split at h
    case h_7 => cases h
    all_goals
      obtain ⟨a, ha, rfl⟩ := map_eq_ok_iff.mp h
      constructor
      exact ha
  · intro h
    cases h <;> exact map_eq_ok_iff.mpr ⟨_, ‹_›, rfl⟩

theorem EdgeField.rel_target {entries : List (String × Value)} {decoded : List EdgeField}
    (h : List.Forall₂ (fun x f => ReadFrom f x) entries decoded) :
    Option.Rel (fun id v => Decode.string v = .ok id) (decoded.findSome? target?)
      (entries.lookup "target") := by
  refine rel_findSome?_lookup (fun f x hf => ?_) h
  cases hf <;> simp [target?, *]

theorem EdgeEntry.derives_decode :
    Derives standardDecoders.edgeFields fun entries => decode (.table entries) := by
  refine derives_of_entries EdgeField.decode_eq_ok_iff ?_ ?_ ?_ ?_
  · intro x f h
    cases h <;> simp [Decoders.edgeFields, Field.key]
  · intro v
    simp only [Decoders.edgeFields, List.forall_mem_cons, Field.admits_required_some,
      Field.admits_optional_some, Field.admits_defaulted_some, Field.key]
    exact ⟨fun ⟨_, h⟩ => ⟨_, .target h⟩, fun ⟨_, h⟩ => ⟨_, .literal h⟩,
      fun ⟨_, h⟩ => ⟨_, .anyOf h⟩, fun ⟨_, h⟩ => ⟨_, .bytes h⟩, fun ⟨_, h⟩ => ⟨_, .code h⟩,
      fun ⟨_, h⟩ => ⟨_, .peek h⟩, by simp⟩
  · intro entries decoded e h hof
    obtain ⟨id, hid, hof⟩ := bind_eq_ok_iff.mp hof
    cases hof
    simp only [Decoders.edgeFields, List.forall_mem_cons, Field.key]
    refine ⟨Field.agrees_required_of_rel (EdgeField.rel_target h)
        (Decode.required_eq_ok_iff.mp hid),
      rel_findSome?_lookup ?_ h, rel_findSome?_lookup ?_ h, rel_findSome?_lookup ?_ h,
      rel_findSome?_lookup ?_ h,
      Field.agrees_defaulted_of_rel (rel_findSome?_lookup ?_ h) rfl, by simp⟩
    all_goals
      intro f x hf
      cases hf <;>
        simp [EdgeField.literal?, EdgeField.anyOf?, EdgeField.bytes?, EdgeField.code?,
          EdgeField.peek?, standardDecoders, *]
  · intro entries decoded h hadmits
    obtain ⟨id, hid⟩ := Field.exists_of_rel (EdgeField.rel_target h)
      (hadmits _ List.mem_cons_self)
    exact ⟨_, bind_eq_ok_iff.mpr ⟨id, Decode.required_eq_ok_iff.mpr hid, rfl⟩⟩

/-! ### Nodes -/

inductive NodeField.ReadFrom : NodeField → String × Value → Prop
  | id {v : Value} {id : String} (h : Decode.string v = .ok id) : ReadFrom (.id id) ("id", v)
  | name {v : Value} {text : String} (h : Decode.string v = .ok text) :
    ReadFrom (.name text) ("name", v)
  | edges {v : Value} {entries : List EdgeEntry}
      (h : Decode.list EdgeEntry.decode v = .ok entries) : ReadFrom (.edges entries) ("edges", v)
  | otherwise {v : Value} {id : String} (h : Decode.string v = .ok id) :
    ReadFrom (.otherwise id) ("otherwise", v)
  | skipTo {v : Value} {id : String} (h : Decode.string v = .ok id) :
    ReadFrom (.skipTo id) ("skip_to", v)

theorem NodeField.decode_eq_ok_iff {x : String × Value} {f : NodeField} :
    decode x = .ok f ↔ f.ReadFrom x := by
  constructor
  · intro h
    rw [decode.eq_def] at h
    split at h
    case h_6 => cases h
    all_goals
      obtain ⟨a, ha, rfl⟩ := map_eq_ok_iff.mp h
      constructor
      exact ha
  · intro h
    cases h <;> exact map_eq_ok_iff.mpr ⟨_, ‹_›, rfl⟩

theorem NodeField.rel_id {entries : List (String × Value)} {decoded : List NodeField}
    (h : List.Forall₂ (fun x f => ReadFrom f x) entries decoded) :
    Option.Rel (fun id v => Decode.string v = .ok id) (decoded.findSome? id?)
      (entries.lookup "id") := by
  refine rel_findSome?_lookup (fun f x hf => ?_) h
  cases hf <;> simp [id?, *]

theorem NodeEntry.derives_decode :
    Derives standardDecoders.nodeFields fun entries => decode (.table entries) := by
  refine derives_of_entries NodeField.decode_eq_ok_iff ?_ ?_ ?_ ?_
  · intro x f h
    cases h <;> simp [Decoders.nodeFields, Field.key]
  · intro v
    simp only [Decoders.nodeFields, List.forall_mem_cons, Field.admits_required_some,
      Field.admits_optional_some, Field.admits_defaulted_some, Field.key]
    exact ⟨fun ⟨_, h⟩ => ⟨_, .id h⟩, fun ⟨_, h⟩ => ⟨_, .name h⟩, fun ⟨_, h⟩ => ⟨_, .edges h⟩,
      fun ⟨_, h⟩ => ⟨_, .otherwise h⟩, fun ⟨_, h⟩ => ⟨_, .skipTo h⟩, by simp⟩
  · intro entries decoded e h hof
    obtain ⟨id, hid, hof⟩ := bind_eq_ok_iff.mp hof
    cases hof
    simp only [Decoders.nodeFields, List.forall_mem_cons, Field.key]
    refine ⟨Field.agrees_required_of_rel (NodeField.rel_id h)
        (Decode.required_eq_ok_iff.mp hid),
      rel_findSome?_lookup ?_ h,
      Field.agrees_defaulted_of_rel (rel_findSome?_lookup ?_ h) rfl,
      rel_findSome?_lookup ?_ h, rel_findSome?_lookup ?_ h, by simp⟩
    all_goals
      intro f x hf
      cases hf <;>
        simp [NodeField.name?, NodeField.edges?, NodeField.otherwise?, NodeField.skipTo?,
          standardDecoders, *]
  · intro entries decoded h hadmits
    obtain ⟨id, hid⟩ := Field.exists_of_rel (NodeField.rel_id h) (hadmits _ List.mem_cons_self)
    exact ⟨_, bind_eq_ok_iff.mpr ⟨id, Decode.required_eq_ok_iff.mpr hid, rfl⟩⟩

/-! ### Descriptions -/

inductive DescriptionField.ReadFrom : DescriptionField → String × Value → Prop
  | root {v : Value} {id : String} (h : Decode.string v = .ok id) :
    ReadFrom (.root id) ("root", v)
  | nodes {v : Value} {entries : List NodeEntry}
      (h : Decode.list NodeEntry.decode v = .ok entries) : ReadFrom (.nodes entries) ("nodes", v)

theorem DescriptionField.decode_eq_ok_iff {x : String × Value} {f : DescriptionField} :
    decode x = .ok f ↔ f.ReadFrom x := by
  constructor
  · intro h
    rw [decode.eq_def] at h
    split at h
    case h_3 => cases h
    all_goals
      obtain ⟨a, ha, rfl⟩ := map_eq_ok_iff.mp h
      constructor
      exact ha
  · intro h
    cases h <;> exact map_eq_ok_iff.mpr ⟨_, ‹_›, rfl⟩

theorem DescriptionField.rel_root {entries : List (String × Value)}
    {decoded : List DescriptionField}
    (h : List.Forall₂ (fun x f => ReadFrom f x) entries decoded) :
    Option.Rel (fun id v => Decode.string v = .ok id) (decoded.findSome? root?)
      (entries.lookup "root") := by
  refine rel_findSome?_lookup (fun f x hf => ?_) h
  cases hf <;> simp [root?, *]

theorem Description.derives_decode : Derives standardDecoders.descriptionFields decode := by
  refine derives_of_entries DescriptionField.decode_eq_ok_iff ?_ ?_ ?_ ?_
  · intro x f h
    cases h <;> simp [Decoders.descriptionFields, Field.key]
  · intro v
    simp only [Decoders.descriptionFields, List.forall_mem_cons, Field.admits_required_some,
      Field.admits_defaulted_some, Field.key]
    exact ⟨fun ⟨_, h⟩ => ⟨_, .root h⟩, fun ⟨_, h⟩ => ⟨_, .nodes h⟩, by simp⟩
  · intro entries decoded d h hof
    obtain ⟨id, hid, hof⟩ := bind_eq_ok_iff.mp hof
    cases hof
    simp only [Decoders.descriptionFields, List.forall_mem_cons, Field.key]
    refine ⟨Field.agrees_required_of_rel (DescriptionField.rel_root h)
        (Decode.required_eq_ok_iff.mp hid),
      Field.agrees_defaulted_of_rel (rel_findSome?_lookup ?_ h) rfl, by simp⟩
    intro f x hf
    cases hf <;> simp [DescriptionField.nodes?, standardDecoders, *]
  · intro entries decoded h hadmits
    obtain ⟨id, hid⟩ := Field.exists_of_rel (DescriptionField.rel_root h)
      (hadmits _ List.mem_cons_self)
    exact ⟨_, bind_eq_ok_iff.mpr ⟨id, Decode.required_eq_ok_iff.mpr hid, rfl⟩⟩

/-! ### The whole -/

theorem Description.read_eq_ok_iff {text : String} {d : Description} : read text = .ok d ↔
    ∃ entries, Toml.parse text = some entries ∧ decode entries = .ok d := by
  simp only [read, mapError_eq_ok_iff, readText]
  cases Toml.parse text with
  | none => simp
  | some entries => simp [mapError_eq_ok_iff]

theorem standardDecoders_lawful : standardDecoders.Lawful where
  parse := Toml.distinct_of_parse
  string := Decode.string_eq_ok_iff
  boolean := Decode.boolean_eq_ok_iff
  byte := Decode.byte_eq_ok_iff
  word := Decode.word_eq_ok_iff
  list := Decode.list_eq_ok_iff
  edge := EdgeEntry.derives_decode
  edge_scalar := by
    rintro v ⟨htable, harray⟩
    cases v <;> simp_all [standardDecoders, EdgeEntry.decode]
  node := NodeEntry.derives_decode
  node_scalar := by
    rintro v ⟨htable, harray⟩
    cases v <;> simp_all [standardDecoders, NodeEntry.decode]
  description := Description.derives_decode
  read := Description.read_eq_ok_iff

end StateDiagram
