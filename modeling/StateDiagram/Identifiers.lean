/-! Identifiers of nodes within one drawing. A node keeps its name if that is free; otherwise
the first free one of `name_0`, `name_1`, and so on, is taken. -/
namespace StateDiagram

def numbered (name : String) (k : Nat) : String := name ++ "_" ++ toString k

theorem numbered_injective {name : String} {i j : Nat} (h : numbered name i = numbered name j) :
    i = j := by
  have hl := congrArg String.toList h
  simp only [numbered, String.toList_append] at hl
  have hn := congrArg (fun ds => Nat.ofDigitChars 10 ds 0) (List.append_cancel_left hl)
  simpa [Nat.toString_eq_ofList_toDigits] using hn

/-- The first number from `k` on that makes the name free. Names found taken are struck off,
which ends the search; numbers already tried are not tried again. -/
def freeNumber (name : String) (taken : List String) (k : Nat) : Nat :=
  if numbered name k ∈ taken then freeNumber name (taken.erase (numbered name k)) (k + 1) else k
termination_by taken.length
decreasing_by
  rename_i h
  rw [List.length_erase_of_mem h]
  have := List.length_pos_iff.mpr (List.ne_nil_of_mem h)
  omega

theorem freeNumber_spec (name : String) (taken : List String) (k : Nat) :
    numbered name (freeNumber name taken k) ∉ taken ∧ k ≤ freeNumber name taken k ∧
      ∀ i, k ≤ i → i < freeNumber name taken k → numbered name i ∈ taken := by
  fun_induction freeNumber name taken k with
  | case1 taken k h ih =>
    obtain ⟨hfree, hle, hall⟩ := ih
    refine ⟨fun hm => hfree ((List.mem_erase_of_ne ?_).mpr hm), by omega, ?_⟩
    · intro e
      have := numbered_injective e
      omega
    · intro i hi hlt
      by_cases he : i = k
      · subst he; exact h
      · exact List.mem_of_mem_erase (hall i (by omega) hlt)
  | case2 taken k h => exact ⟨h, Nat.le_refl k, fun i hi hlt => by omega⟩

/-- The identifiers given so far, as plain text, in the order in which they were given, and the
names that are no longer free. -/
structure Identifiers (ν : Type) where
  entries : List (ν × String)
  taken : List String
  deriving Repr

namespace Identifiers

variable {ν μ : Type}

def empty : Identifiers ν := ⟨[], []⟩

def size (ids : Identifiers ν) : Nat := ids.entries.length

def isEmpty (ids : Identifiers ν) : Bool := ids.entries.isEmpty

def map (f : ν → μ) (ids : Identifiers ν) : Identifiers μ :=
  ⟨ids.entries.map fun e => (f e.1, e.2), ids.taken⟩

/-- The identifier that a node called `name` gets if it is the next one. -/
def next (ids : Identifiers ν) (name : String) : String :=
  if name ∈ ids.taken then numbered name (freeNumber name ids.taken 0) else name

theorem next_not_mem (ids : Identifiers ν) (name : String) : ids.next name ∉ ids.taken := by
  unfold next
  split
  · exact (freeNumber_spec name ids.taken 0).1
  · assumption

variable [DecidableEq ν]

def find? (ids : Identifiers ν) (v : ν) : Option String := ids.entries.lookup v

/-- The identifier of a node: the one it has, or else the one it gets next. -/
def idOf (ids : Identifiers ν) (v : ν) (name : String) : String :=
  (ids.find? v).getD (ids.next name)

/-- Give a node an identifier, unless it has one. -/
def assign (ids : Identifiers ν) (v : ν) (name : String) : Identifiers ν :=
  if (ids.find? v).isSome then ids
  else ⟨ids.entries ++ [(v, ids.next name)], ids.taken ++ [ids.next name]⟩

theorem find?_assign (ids : Identifiers ν) (v : ν) (name : String) :
    (ids.assign v name).find? v = some (ids.idOf v name) := by
  unfold assign idOf
  cases h : ids.find? v with
  | some id => simp [h]
  | none =>
    unfold find? at h
    simp [find?, List.lookup_append, h]

end Identifiers
end StateDiagram
