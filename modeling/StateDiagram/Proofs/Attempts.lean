import Mathlib.Data.List.Forall2

/-! Lists of attempts, of which the first that fails is reported. -/
namespace StateDiagram

variable {α β ε : Type} {f : α → Except ε β}

theorem bind_eq_ok_iff {γ : Type} {x : Except ε α} {g : α → Except ε γ} {c : γ} :
    x.bind g = .ok c ↔ ∃ a, x = .ok a ∧ g a = .ok c := by
  cases x <;> simp [Except.bind]

theorem mapError_eq_ok_iff {δ : Type} {x : Except ε α} {g : ε → δ} {a : α} :
    x.mapError g = .ok a ↔ x = .ok a := by
  cases x <;> simp [Except.mapError]

theorem mapM_eq_ok_iff {xs : List α} {ys : List β} :
    xs.mapM f = .ok ys ↔ List.Forall₂ (fun x y => f x = .ok y) xs ys := by
  induction xs generalizing ys with
  | nil =>
    rw [List.mapM_nil]
    exact ⟨fun h => by cases h; exact .nil, fun h => by cases h; rfl⟩
  | cons x xs ih =>
    rw [List.mapM_cons]
    constructor
    · intro h
      obtain ⟨y, hy, h⟩ := bind_eq_ok_iff.mp h
      obtain ⟨zs, hzs, h⟩ := bind_eq_ok_iff.mp h
      cases h
      exact .cons hy (ih.mp hzs)
    · rintro (_ | ⟨hy, hys⟩)
      rw [hy, ih.mpr hys]
      rfl

theorem exists_of_forall₂_of_mem_right {R : α → β → Prop} {xs : List α} {ys : List β}
    (h : List.Forall₂ R xs ys) {y : β} (hy : y ∈ ys) : ∃ x ∈ xs, R x y := by
  induction h with
  | nil => cases hy
  | @cons x _ _ _ hxy _ ih =>
    rcases List.mem_cons.mp hy with rfl | hy
    · exact ⟨x, List.mem_cons_self, hxy⟩
    · obtain ⟨x', hx', hxy'⟩ := ih hy
      exact ⟨x', List.mem_cons_of_mem x hx', hxy'⟩

theorem mapM_eq_ok_map {g : α → β} {xs : List α} (h : ∀ x ∈ xs, f x = .ok (g x)) :
    xs.mapM f = .ok (xs.map g) := by
  rw [mapM_eq_ok_iff, List.forall₂_map_right_iff]
  exact List.forall₂_same.mpr h

def fault? : Except ε α → Option ε
  | .error e => some e
  | .ok _ => none

theorem fault?_eq_some_iff {x : Except ε α} {e : ε} : fault? x = some e ↔ x = .error e := by
  cases x <;> simp [fault?]

theorem fault?_eq_none_iff {x : Except ε α} : fault? x = none ↔ ∃ a, x = .ok a := by
  cases x <;> simp [fault?]

theorem fault?_map {γ : Type} (x : Except ε α) (g : α → γ) : fault? (x.map g) = fault? x := by
  cases x <;> rfl

theorem fault?_mapError {δ : Type} (x : Except ε α) (g : ε → δ) :
    fault? (x.mapError g) = (fault? x).map g := by
  cases x <;> rfl

theorem fault?_bind_pure {γ : Type} (x : Except ε α) (g : α → γ) :
    fault? (x >>= fun a => pure (g a)) = fault? x := by
  cases x <;> rfl

/-- Of two attempts that do not depend on each other the first one that fails is reported. -/
theorem fault?_bind {γ : Type} {x : Except ε α} {g : α → Except ε γ} {o : Option ε}
    (h : ∀ a, fault? (g a) = o) : fault? (x >>= g) = (fault? x).or o := by
  cases x with
  | error e => rfl
  | ok a => exact h a

/-- Of a list of attempts the first one that fails is reported. -/
theorem fault?_mapM (f : α → Except ε β) (xs : List α) :
    fault? (xs.mapM f) = xs.findSome? fun x => fault? (f x) := by
  induction xs with
  | nil => rfl
  | cons x xs ih =>
    rw [List.mapM_cons, List.findSome?_cons]
    cases hx : f x with
    | error e => rfl
    | ok y =>
      exact (fault?_bind_pure (xs.mapM f) (y :: ·)).trans ih

theorem findSome?_eq_some_iff_find? {f : α → Option β} {xs : List α} {b : β} :
    xs.findSome? f = some b ↔ ∃ a, xs.find? (fun a => (f a).isSome) = some a ∧ f a = some b := by
  induction xs with
  | nil => simp
  | cons x xs ih =>
    rw [List.findSome?_cons]
    cases hx : f x with
    | none => simp [hx, ih]
    | some c => simp [hx]

theorem mapM_congr {f' : α → Except ε β} {xs : List α} (h : ∀ x ∈ xs, f x = f' x) :
    xs.mapM f = xs.mapM f' := by
  induction xs with
  | nil => rfl
  | cons x xs ih =>
    rw [List.mapM_cons, List.mapM_cons, h x List.mem_cons_self,
      ih fun y hy => h y (List.mem_cons_of_mem x hy)]

theorem mapM_map_result {γ : Type} (g : β → γ) (xs : List α) :
    (xs.mapM fun x => (f x).map g) = (xs.mapM f).map (·.map g) := by
  induction xs with
  | nil => rw [List.mapM_nil, List.mapM_nil]; rfl
  | cons x xs ih =>
    rw [List.mapM_cons, List.mapM_cons, ih]
    cases f x with
    | error e => rfl
    | ok y => cases xs.mapM f <;> rfl

theorem map_eq_map_of_mapM {γ : Type} {p : β → γ} {q : α → γ} {xs : List α} {ys : List β}
    (h : xs.mapM f = .ok ys) (hf : ∀ x y, f x = .ok y → p y = q x) : ys.map p = xs.map q := by
  have hall := mapM_eq_ok_iff.mp h
  clear h
  induction hall with
  | nil => rfl
  | cons hy _ ih => rw [List.map_cons, List.map_cons, hf _ _ hy, ih]

end StateDiagram
