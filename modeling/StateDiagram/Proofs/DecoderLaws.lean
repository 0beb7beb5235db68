import Mathlib.Data.List.Forall2
import StateDiagram.Description.Declaration
import StateDiagram.Proofs.UniqueKeys

/-! What is relied on of the code that loads descriptions. Every law is about one part: the tables
of a parser, a type, a kind of field of a derived record, or the reader that brings them together
(`Decoders.Lawful`). -/
namespace StateDiagram

open Toml (Value)

variable {ε ρ : Type}

/-- A record is decoded from a table with unique keys. -/
def Makes (decode : List (String × Value) → Except ε ρ) (entries : List (String × Value))
    (r : ρ) : Prop :=
  (entries.map (·.1)).Nodup ∧ decode entries = .ok r

/-- The decoder is derived from the fields of its record. -/
structure Derives (fields : List (Field ε ρ))
    (decode : List (String × Value) → Except ε ρ) : Prop where
  /-- A key that belongs to no field is refused. -/
  unknown : ∀ {entries r}, Makes decode entries r → ∀ x ∈ entries, ∃ f ∈ fields, f.key = x.1
  /-- So is a table without a field that must be there. -/
  missing : ∀ {α : Type} {key : String} {get : ρ → α} {item : Value → Except ε α},
    .required key get item ∈ fields → ∀ {entries r}, Makes decode entries r →
      entries.lookup key ≠ none
  required : ∀ {α : Type} {key : String} {get : ρ → α} {item : Value → Except ε α},
    .required key get item ∈ fields → ∀ {entries r v}, Makes decode entries r →
      entries.lookup key = some v → item v = .ok (get r)
  omitted : ∀ {α : Type} {key : String} {get : ρ → Option α} {item : Value → Except ε α},
    .optional key get item ∈ fields → ∀ {entries r}, Makes decode entries r →
      entries.lookup key = none → get r = none
  optional : ∀ {α : Type} {key : String} {get : ρ → Option α} {item : Value → Except ε α},
    .optional key get item ∈ fields → ∀ {entries r v}, Makes decode entries r →
      entries.lookup key = some v → ∃ a, item v = .ok a ∧ get r = some a
  default : ∀ {α : Type} {key : String} {a : α} {get : ρ → α} {item : Value → Except ε α},
    .defaulted key a get item ∈ fields → ∀ {entries r}, Makes decode entries r →
      entries.lookup key = none → get r = a
  defaulted : ∀ {α : Type} {key : String} {a : α} {get : ρ → α} {item : Value → Except ε α},
    .defaulted key a get item ∈ fields → ∀ {entries r v}, Makes decode entries r →
      entries.lookup key = some v → item v = .ok (get r)
  /-- No other table is refused. -/
  accepted : ∀ {entries}, (entries.map (·.1)).Nodup → (∀ x ∈ entries, ∃ f ∈ fields, f.key = x.1) →
    (∀ f ∈ fields, f.Admits (entries.lookup f.key)) → ∃ r, decode entries = .ok r

def Toml.Value.IsScalar (v : Value) : Prop :=
  (∀ entries, v ≠ .table entries) ∧ ∀ items, v ≠ .array items

structure Decoders.Lawful (D : Decoders ε) : Prop where
  parse : ∀ {text entries}, D.parse text = some entries → (Value.table entries).Distinct
  string : ∀ {v s}, D.string v = .ok s ↔ v = .string s
  boolean : ∀ {v b}, D.boolean v = .ok b ↔ v = .boolean b
  /-- A byte is a number from 0 to 255. -/
  byte : ∀ {v b}, D.byte v = .ok b ↔ v = .integer b.toNat
  /-- A word is a number of 32 bits with its sign. -/
  word : ∀ {v c}, D.word v = .ok c ↔ v = .integer c.toInt
  list : ∀ {α : Type} {item : Value → Except ε α} {v : Value} {as : List α},
    D.list item v = .ok as ↔
      ∃ items, v = .array items ∧ List.Forall₂ (fun x a => item x = .ok a) items as
  edge : Derives D.edgeFields fun entries => D.edge (.table entries)
  edge_scalar : ∀ {v}, v.IsScalar → ∃ fault, D.edge v = .error fault
  node : Derives D.nodeFields fun entries => D.node (.table entries)
  node_scalar : ∀ {v}, v.IsScalar → ∃ fault, D.node v = .error fault
  description : Derives D.descriptionFields D.description
  read : ∀ {text d}, D.read text = .ok d ↔
    ∃ entries, D.parse text = some entries ∧ D.description entries = .ok d

/-! ### The fields of a record -/

/-- What may stand for a field with a default: its value, or nothing if that is the default. -/
inductive Defaulted {α : Type} (default : α) (written : α → Value → Prop) :
    α → Option Value → Prop
  | omitted : Defaulted default written default none
  | given {a : α} {v : Value} (h : written a v) : Defaulted default written a (some v)

theorem defaulted_some_iff {α : Type} {default a : α} {written : α → Value → Prop} {v : Value} :
    Defaulted default written a (some v) ↔ written a v := by
  constructor
  · rintro (_ | h)
    exact h
  · exact .given

namespace Field

/-- The field of a record is what stands under its key. -/
def Agrees (found : Option Value) (r : ρ) : Field ε ρ → Prop
  | required _ get item => ∃ v ∈ found, item v = .ok (get r)
  | optional _ get item => Option.Rel (fun a v => item v = .ok a) (get r) found
  | defaulted _ default get item =>
    Defaulted default (fun a v => item v = .ok a) (get r) found

def Same (r r' : ρ) : Field ε ρ → Prop
  | required _ get _ => get r = get r'
  | optional _ get _ => get r = get r'
  | defaulted _ _ get _ => get r = get r'

variable {f : Field ε ρ} {found : Option Value} {r r' : ρ}

theorem Agrees.admits (h : f.Agrees found r) : f.Admits found := by
  cases f with
  | required key get item =>
    obtain ⟨v, hv, hok⟩ := h
    exact ⟨v, hv, get r, hok⟩
  | optional key get item =>
    rintro v rfl
    have hrel : Option.Rel _ (get r) (some v) := h
    generalize get r = o at hrel
    cases hrel with
    | some hok => exact ⟨_, hok⟩
  | defaulted key default get item =>
    rintro v rfl
    exact ⟨get r, defaulted_some_iff.mp h⟩

theorem Agrees.same (h : f.Agrees found r) (h' : f.Agrees found r') : f.Same r r' := by
  cases f with
  | required key get item =>
    obtain ⟨v, hv, hok⟩ := h
    obtain ⟨w, hw, hok'⟩ := h'
    cases hv.symm.trans hw
    exact Except.ok.inj (hok.symm.trans hok')
  | optional key get item =>
    have hrel : Option.Rel _ (get r) found := h
    have hrel' : Option.Rel _ (get r') found := h'
    show get r = get r'
    generalize get r = o, get r' = o' at hrel hrel' ⊢
    cases hrel with
    | none => cases hrel'; rfl
    | some hok =>
      cases hrel' with
      | some hok' => rw [Except.ok.inj (hok.symm.trans hok')]
  | defaulted key default get item =>
    have hget : Defaulted default (fun a v => item v = .ok a) (get r) found := h
    have hget' : Defaulted default (fun a v => item v = .ok a) (get r') found := h'
    show get r = get r'
    generalize get r = a, get r' = a' at hget hget' ⊢
    cases hget with
    | omitted => cases hget'; rfl
    | given hok =>
      cases hget' with
      | given hok' => exact Except.ok.inj (hok.symm.trans hok')

end Field

variable {fields : List (Field ε ρ)} {decode : List (String × Value) → Except ε ρ}
  {entries : List (String × Value)} {r : ρ}

theorem Derives.agrees (h : Derives fields decode) (hr : Makes decode entries r) :
    ∀ f ∈ fields, f.Agrees (entries.lookup f.key) r := by
  intro f hf
  cases f with
  | required key get item =>
    obtain ⟨v, hv⟩ := Option.ne_none_iff_exists'.mp (h.missing hf hr)
    exact ⟨v, hv, h.required hf hr hv⟩
  | optional key get item =>
    show Option.Rel _ (get r) (entries.lookup key)
    cases hv : entries.lookup key with
    | none =>
      rw [h.omitted hf hr hv]
      exact .none
    | some v =>
      obtain ⟨a, hok, ha⟩ := h.optional hf hr hv
      rw [ha]
      exact .some hok
  | defaulted key default get item =>
    show Defaulted default _ (get r) (entries.lookup key)
    cases hv : entries.lookup key with
    | none =>
      rw [h.default hf hr hv]
      exact .omitted
    | some v => exact .given (h.defaulted hf hr hv)

/-- A table gives the record that agrees with it in every field. -/
theorem Derives.eq_ok_iff (h : Derives fields decode) (hkeys : (entries.map (·.1)).Nodup)
    (hfields : ∀ r', (∀ f ∈ fields, f.Same r r') → r = r') : decode entries = .ok r ↔
      (∀ x ∈ entries, ∃ f ∈ fields, f.key = x.1) ∧
        ∀ f ∈ fields, f.Agrees (entries.lookup f.key) r := by
  constructor
  · intro hr
    exact ⟨h.unknown ⟨hkeys, hr⟩, h.agrees ⟨hkeys, hr⟩⟩
  · rintro ⟨hknown, hagrees⟩
    obtain ⟨r', hr'⟩ := h.accepted hkeys hknown fun f hf => (hagrees f hf).admits
    have hsame : r = r' :=
      hfields r' fun f hf => (hagrees f hf).same (h.agrees ⟨hkeys, hr'⟩ f hf)
    rw [hsame, hr']

/-- The laws hold if the keys of a record's table are known, each field agrees with its key, and
all that is asked of a table is that it could agree. -/
theorem derives_of_agrees
    (hunknown : ∀ {entries r}, Makes decode entries r → ∀ x ∈ entries, ∃ f ∈ fields, f.key = x.1)
    (hagrees : ∀ {entries r}, Makes decode entries r →
      ∀ f ∈ fields, f.Agrees (entries.lookup f.key) r)
    (haccepted : ∀ {entries}, (entries.map (·.1)).Nodup →
      (∀ x ∈ entries, ∃ f ∈ fields, f.key = x.1) →
        (∀ f ∈ fields, f.Admits (entries.lookup f.key)) → ∃ r, decode entries = .ok r) :
    Derives fields decode where
  unknown := hunknown
  missing := by
    intro α key get item hf entries r hr hnone
    obtain ⟨v, hv, -⟩ := hagrees hr _ hf
    cases hnone.symm.trans hv
  required := by
    intro α key get item hf entries r v hr hv
    obtain ⟨w, hw, hok⟩ := hagrees hr _ hf
    cases hv.symm.trans hw
    exact hok
  omitted := by
    intro α key get item hf entries r hr hnone
    have h : Option.Rel _ (get r) (entries.lookup key) := hagrees hr _ hf
    rw [hnone] at h
    generalize get r = o at h ⊢
    cases h
    rfl
  optional := by
    intro α key get item hf entries r v hr hv
    have h : Option.Rel _ (get r) (entries.lookup key) := hagrees hr _ hf
    rw [hv] at h
    generalize get r = o at h ⊢
    cases h with
    | some hok => exact ⟨_, hok, rfl⟩
  default := by
    intro α key a get item hf entries r hr hnone
    have h : Defaulted a _ (get r) (entries.lookup key) := hagrees hr _ hf
    rw [hnone] at h
    generalize get r = b at h ⊢
    cases h
    rfl
  defaulted := by
    intro α key a get item hf entries r v hr hv
    have h : Defaulted a _ (get r) (entries.lookup key) := hagrees hr _ hf
    rw [hv] at h
    exact defaulted_some_iff.mp h
  accepted := haccepted

end StateDiagram
