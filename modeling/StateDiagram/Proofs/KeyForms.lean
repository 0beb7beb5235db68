import StateDiagram.Description.Linking
import StateDiagram.Proofs.Attempts

/-! The forms in which the key of an edge entry can be given, what each stands for, and what can be
wrong with it. An entry has keys exactly if one form is given and nothing is wrong with that one
(`edges_eq_ok_iff`). -/
namespace StateDiagram

inductive KeyForm
  | literal (text : String)
  | anyOf (text : String)
  | bytes (bytes : List UInt8)
  | code (value : Int32)
  deriving DecidableEq, Repr

namespace KeyForm

/-- The keys that a form stands for: a text or bytes as a whole, each byte of a text, or a code. -/
def keys : KeyForm → List Key
  | literal text => [.bytes (utf8 text)]
  | anyOf text => (utf8 text).map fun b => .bytes [b]
  | bytes bs => [.bytes bs]
  | code c => [.code c]

def isCode : KeyForm → Bool
  | code _ => true
  | _ => false

def isEmpty : KeyForm → Bool
  | literal text => text == ""
  | anyOf text => text == ""
  | bytes bs => bs == []
  | code _ => false

def emptyFault : KeyForm → KeyFault
  | anyOf _ => .emptyAnyOf
  | _ => .emptyMatch

end KeyForm

namespace EdgeEntry

def forms (x : EdgeEntry) : List KeyForm :=
  x.literal.toList.map .literal ++ x.anyOf.toList.map .anyOf ++ x.bytes.toList.map .bytes ++
    x.code.toList.map .code

/-- Exactly one form is given, it is not empty, and a code is not peeked at. -/
def WellKeyed (x : EdgeEntry) : Prop :=
  ∃ form, x.forms = [form] ∧ form.isEmpty = false ∧ (form.isCode = true → x.peek = false)

/-- The edges to `t` that an entry stands for. Those of a code never take input. -/
def expansion {ν : Type} (x : EdgeEntry) (t : ν) : List (Edge ν) :=
  x.forms.flatMap fun form => form.keys.map fun k => ⟨t, some k, form.isCode || x.peek⟩

def keyFaults (x : EdgeEntry) : List KeyFault :=
  (if x.forms.length = 1 then [] else [.notExactlyOne]) ++
    (if x.forms.any KeyForm.isCode && x.peek then [.peekOnCode] else []) ++
    (x.forms.filter KeyForm.isEmpty).map KeyForm.emptyFault

theorem formCount_eq (x : EdgeEntry) : x.formCount = x.forms.length := by
  rcases x with ⟨target, literal, anyOf, bytes, code, peek⟩
  cases literal <;> cases anyOf <;> cases bytes <;> cases code <;> rfl

end EdgeEntry

theorem utf8_eq_nil_iff {s : String} : utf8 s = [] ↔ s = "" := by
  rw [utf8, List.flatMap_eq_nil_iff]
  constructor
  · intro h
    have hnil : s.toList = [] :=
      List.eq_nil_iff_forall_not_mem.mpr fun c hc => charBytes_ne_nil c (h c hc)
    simpa using hnil
  · rintro rfl c hc
    simp at hc

/-- The entry that gives a form and no other one. -/
def KeyForm.entry (target : String) (peek : Bool) : KeyForm → EdgeEntry
  | literal text => ⟨target, some text, none, none, none, peek⟩
  | anyOf text => ⟨target, none, some text, none, none, peek⟩
  | bytes bs => ⟨target, none, none, some bs, none, peek⟩
  | code c => ⟨target, none, none, none, some c, peek⟩

@[simp] theorem KeyForm.forms_entry (target : String) (peek : Bool) (form : KeyForm) :
    (form.entry target peek).forms = [form] := by
  cases form <;> rfl

@[simp] theorem KeyForm.target_entry (target : String) (peek : Bool) (form : KeyForm) :
    (form.entry target peek).target = target := by
  cases form <;> rfl

@[simp] theorem KeyForm.peek_entry (target : String) (peek : Bool) (form : KeyForm) :
    (form.entry target peek).peek = peek := by
  cases form <;> rfl

namespace EdgeEntry

theorem exists_entry_of_forms {x : EdgeEntry} {form : KeyForm} (h : x.forms = [form]) :
    ∃ target peek, form.entry target peek = x := by
  rcases x with ⟨target, literal, anyOf, bytes, code, peek⟩
  refine ⟨target, peek, ?_⟩
  cases literal <;> cases anyOf <;> cases bytes <;> cases code <;>
    simp [forms] at h <;> subst h <;> rfl

theorem keys_of_forms {x : EdgeEntry} {form : KeyForm} (h : x.forms = [form]) :
    x.keys =
      if form.isCode && x.peek then .error .peekOnCode
      else if form.isEmpty then .error form.emptyFault
      else .ok (form.keys, form.isCode || x.peek) := by
  have hcount : ¬x.formCount ≠ 1 := by simp [formCount_eq, h]
  rw [keys, if_neg hcount]
  obtain ⟨target, peek, rfl⟩ := exists_entry_of_forms h
  cases form with
  | literal text =>
    by_cases ht : text = "" <;>
      simp [KeyForm.entry, KeyForm.isCode, KeyForm.isEmpty, KeyForm.emptyFault, KeyForm.keys,
        utf8_eq_nil_iff, ht]
  | anyOf text =>
    by_cases ht : text = "" <;>
      simp [KeyForm.entry, KeyForm.isCode, KeyForm.isEmpty, KeyForm.emptyFault, KeyForm.keys, ht]
  | bytes bs =>
    cases bs <;> simp [KeyForm.entry, KeyForm.isCode, KeyForm.isEmpty, KeyForm.emptyFault,
      KeyForm.keys]
  | code c => cases peek <;> rfl

theorem keys_of_forms_ne {x : EdgeEntry} (h : x.forms.length ≠ 1) :
    x.keys = .error .notExactlyOne := by
  rw [keys, formCount_eq, if_pos h]

theorem fault?_keys (x : EdgeEntry) : fault? x.keys = x.keyFaults.head? := by
  by_cases h : x.forms.length = 1
  · obtain ⟨form, hform⟩ := List.length_eq_one_iff.mp h
    rw [keys_of_forms hform, keyFaults, hform]
    by_cases hpeek : form.isCode && x.peek
    · simp [hpeek, fault?]
    · by_cases hempty : form.isEmpty <;> simp [hpeek, hempty, fault?]
  · rw [keys_of_forms_ne h, keyFaults, if_neg h]
    rfl

theorem isCode_and_peek_eq_false {form : KeyForm} {peek : Bool}
    (h : form.isCode = true → peek = false) : (form.isCode && peek) = false := by
  cases hcode : form.isCode with
  | false => rfl
  | true => rw [h hcode, Bool.and_false]

theorem keyFaults_eq_nil_iff {x : EdgeEntry} : x.keyFaults = [] ↔ x.WellKeyed := by
  constructor
  · intro h
    simp only [keyFaults, List.append_eq_nil_iff, List.map_eq_nil_iff] at h
    obtain ⟨⟨hone, hpeek⟩, hempty⟩ := h
    have hlength : x.forms.length = 1 := by
      by_contra hne
      simp [hne] at hone
    obtain ⟨form, hform⟩ := List.length_eq_one_iff.mp hlength
    rw [hform] at hpeek hempty
    refine ⟨form, hform, by simpa using hempty, fun hcode => ?_⟩
    simpa [hcode] using hpeek
  · rintro ⟨form, hform, hempty, hpeek⟩
    simp [keyFaults, hform, hempty, isCode_and_peek_eq_false hpeek]

variable {ν : Type}

theorem fault?_edges (x : EdgeEntry) (t : ν) : fault? (x.edges t) = x.keyFaults.head? := by
  rw [edges, fault?_map, fault?_keys]

theorem edges_of_wellKeyed {x : EdgeEntry} (h : x.WellKeyed) (t : ν) :
    x.edges t = .ok (x.expansion t) := by
  obtain ⟨form, hform, hempty, hpeek⟩ := h
  rw [edges, keys_of_forms hform, expansion, hform]
  simp [isCode_and_peek_eq_false hpeek, hempty, Except.map]

/-- An entry has edges exactly if its key is as it should be, and then those it stands for. -/
theorem edges_eq_ok_iff {x : EdgeEntry} {t : ν} {es : List (Edge ν)} :
    x.edges t = .ok es ↔ x.WellKeyed ∧ es = x.expansion t := by
  constructor
  · intro h
    have hkeyed : x.WellKeyed := by
      rw [← keyFaults_eq_nil_iff, ← List.head?_eq_none_iff, ← fault?_edges x t, h]
      rfl
    rw [edges_of_wellKeyed hkeyed t] at h
    exact ⟨hkeyed, (Except.ok.inj h).symm⟩
  · rintro ⟨hkeyed, rfl⟩
    exact edges_of_wellKeyed hkeyed t

end EdgeEntry
end StateDiagram
