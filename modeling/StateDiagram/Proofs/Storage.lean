import StateDiagram.File.Tree

/-! File systems as a program meets them. A place is where the bytes of a file are, and several
paths can lead to one place. What a program relies on is that reading changes nothing, and that
writing changes either nothing or the one file that its path leads to. When an access fails, and
how, is left open; `FileTree` is one such system (`FileTree.storage`). -/
namespace StateDiagram

variable {π σ : Type}

structure FileView (σ : Type) where
  Place : Type
  /-- The place of the file that a path leads to. -/
  place? : σ → String → Option Place
  /-- The bytes of the file at a place, if there is one. -/
  file? : σ → Place → Option (List UInt8)

/-- From one state to another, the file that a path leads to has come to hold a text. No other
file was made, changed or removed. -/
def FileView.Puts (v : FileView σ) (path text : String) (s s' : σ) : Prop :=
  ∃ place, v.place? s' path = some place ∧ v.file? s' place = some (utf8 text) ∧
    ∀ other, other ≠ place → v.file? s' other = v.file? s other

/-- A file system with states of a given type, and with paths of a given type to read from. -/
structure Storage (π σ : Type) extends FileView σ where
  access : FileAccess π (StateM σ)
  read_snd : ∀ path s, (access.read path s).2 = s
  write_error : ∀ path text s e, (access.write path text s).1 = .error e →
    (access.write path text s).2 = s
  write_ok : ∀ path text s, (access.write path text s).1 = .ok () →
    toFileView.Puts path text s (access.write path text s).2

namespace FileTree

variable {t : FileTree} {here place : List String}

theorem isDirectory_iff : t.isDirectory place = true ↔
    holdsTree place = true ∨ (∃ d ∈ t.directories, place <+: d) ∨
      ∃ f ∈ t.files, place <+: f.1.dropLast := by
  simp [isDirectory, List.any_eq_true, List.isPrefixOf_iff_prefix]

theorem holdsTree_above (h : holdsTree place = true) (hp : here <+: place) :
    holdsTree here = true := by
  simp only [holdsTree, Bool.or_eq_true, decide_eq_true_eq, List.all_eq_true] at h ⊢
  obtain rfl | h := h
  · obtain rfl | ⟨rest, rfl, hr⟩ := List.prefix_cons_iff.mp hp
    · exact .inr (by simp)
    · exact .inl (by rw [List.prefix_nil.mp hr]; rfl)
  · exact .inr fun name hn => h name (hp.subset hn)

theorem isDirectory_above (h : t.isDirectory place = true) (hp : here <+: place) :
    t.isDirectory here = true := by
  rw [isDirectory_iff] at h ⊢
  obtain h | ⟨d, hd, h⟩ | ⟨f, hf, h⟩ := h
  · exact .inl (holdsTree_above h hp)
  · exact .inr (.inl ⟨d, hd, hp.trans h⟩)
  · exact .inr (.inr ⟨f, hf, hp.trans h⟩)

theorem isDirectory_parent (h : t.isDirectory here = true) :
    t.isDirectory (parent here) = true := by
  unfold parent
  split
  case isTrue => exact isDirectory_iff.mpr (.inl (by decide))
  case isFalse =>
    split
    case isTrue hup =>
      refine isDirectory_iff.mpr (.inl ?_)
      rw [holdsTree, Bool.or_eq_true, List.all_append, hup]
      exact .inr (by decide)
    case isFalse => exact isDirectory_above h (List.dropLast_prefix here)

/-- Putting a file into a directory makes no directory. -/
theorem isDirectory_put (bytes : List UInt8) (h : t.isDirectory place.dropLast = true)
    (there : List String) : (t.put place bytes).isDirectory there = t.isDirectory there := by
  rw [Bool.eq_iff_iff, isDirectory_iff]
  constructor
  · rintro (hh | ⟨d, hd, hp⟩ | ⟨f, hf, hp⟩)
    · exact isDirectory_iff.mpr (.inl hh)
    · exact isDirectory_iff.mpr (.inr (.inl ⟨d, hd, hp⟩))
    · obtain hf | hf := List.mem_append.mp hf
      · exact isDirectory_iff.mpr (.inr (.inr ⟨f, (List.mem_filter.mp hf).1, hp⟩))
      · rw [List.mem_singleton.mp hf] at hp
        exact isDirectory_above h hp
  · rw [isDirectory_iff]
    rintro (hh | ⟨d, hd, hp⟩ | ⟨f, hf, hp⟩)
    · exact .inl hh
    · exact .inr (.inl ⟨d, hd, hp⟩)
    · by_cases hfp : f.1 = place
      · exact .inr (.inr ⟨(place, bytes), by simp [put], hfp ▸ hp⟩)
      · exact .inr (.inr ⟨f, by simp [put, hf, hfp], hp⟩)

def spotAt (t : FileTree) (place : List String) : Spot :=
  if t.isDirectory place then .directory place
  else
    match t.find? place with
    | some bytes => .file place bytes
    | none => .free place

def Spot.target? : Spot → Option (List String)
  | directory _ => none
  | file place _ => some place
  | free place => some place

variable {there : List String} {name : String} {names : List String} {spot : Spot}

theorem look_eq_ok_iff : t.look here name = .ok spot ↔
    name = "." ∧ spot = .directory here ∨ name = ".." ∧ spot = .directory (parent here) ∨
      (name ≠ "." ∧ name ≠ ".." ∧ name.utf8ByteSize ≤ longestName) ∧
        spot = t.spotAt (here ++ [name]) := by
  have hlook : t.look here name =
      if name = "." then .ok (.directory here)
      else if name = ".." then .ok (.directory (parent here))
      else if longestName < name.utf8ByteSize then .error .nameTooLong
      else .ok (t.spotAt (here ++ [name])) := by
    unfold look spotAt
    grind
  rw [hlook]
  grind

theorem spotAt_eq_directory_iff :
    t.spotAt place = .directory there ↔ t.isDirectory place = true ∧ there = place := by
  unfold spotAt
  grind

theorem target?_spotAt (h : (t.spotAt there).target? = some place) :
    there = place ∧ t.isDirectory place = false := by
  unfold spotAt at h
  grind [Spot.target?]

theorem isDirectory_of_look (h : t.isDirectory here = true)
    (hl : t.look here name = .ok (.directory there)) : t.isDirectory there = true := by
  obtain ⟨-, hs⟩ | ⟨-, hs⟩ | ⟨-, hs⟩ := look_eq_ok_iff.mp hl
  · cases hs
    exact h
  · cases hs
    exact isDirectory_parent h
  · obtain ⟨hd, rfl⟩ := spotAt_eq_directory_iff.mp hs.symm
    exact hd

theorem look_put_directory (bytes : List UInt8) (h : t.isDirectory place.dropLast = true)
    (hl : t.look here name = .ok (.directory there)) :
    (t.put place bytes).look here name = .ok (.directory there) := by
  rw [look_eq_ok_iff, eq_comm (b := t.spotAt _), spotAt_eq_directory_iff] at hl
  rwa [look_eq_ok_iff, eq_comm (b := (t.put place bytes).spotAt _), spotAt_eq_directory_iff,
    isDirectory_put bytes h]

/-- A name that leads to a place to write at is the last name of that place, and leads to the
file there once one has been put. -/
theorem look_put (bytes : List UInt8) (h : t.isDirectory here = true)
    (hl : t.look here name = .ok spot) (hs : spot.target? = some place) :
    place.dropLast = here ∧ (t.put place bytes).look here name = .ok (.file place bytes) := by
  obtain ⟨-, rfl⟩ | ⟨-, rfl⟩ | ⟨hname, rfl⟩ := look_eq_ok_iff.mp hl
  · cases hs
  · cases hs
  · obtain ⟨rfl, hd⟩ := target?_spotAt hs
    have hhere : (here ++ [name]).dropLast = here := by simp
    refine ⟨hhere, look_eq_ok_iff.mpr (.inr (.inr ⟨hname, ?_⟩))⟩
    rw [spotAt, isDirectory_put bytes (by rwa [hhere]), hd, find?_put]
    rfl

/-- Names that lead to a place to write at lead to the file once it has been put there. -/
theorem walk_put (bytes : List UInt8) (h : t.isDirectory here = true)
    (hw : t.walk here names = .ok spot) (hs : spot.target? = some place) :
    t.isDirectory place.dropLast = true ∧
      (t.put place bytes).walk here names = .ok (.file place bytes) := by
  induction names generalizing here with
  | nil => cases hw; cases hs
  | cons name names ih =>
    cases names with
    | nil =>
      obtain ⟨hp, hl⟩ := look_put bytes h hw hs
      exact ⟨hp ▸ h, hl⟩
    | cons next names =>
      simp only [walk] at hw
      split at hw
      case h_2 there hl =>
        obtain ⟨hd, hput⟩ := ih (isDirectory_of_look h hl) hw
        refine ⟨hd, ?_⟩
        simp only [walk, look_put_directory bytes hd hl, hput]
      all_goals cases hw

theorem locate_put {path : String} (bytes : List UInt8)
    (hl : t.locate path names = .ok spot) (hs : spot.target? = some place) :
    (t.put place bytes).locate path names = .ok (.file place bytes) := by
  have hstart : t.isDirectory (start path) = true := by
    refine isDirectory_iff.mpr (.inl ?_)
    unfold start
    split <;> decide
  simp only [locate] at hl ⊢
  split at hl
  case isTrue => cases hl
  split at hl
  case isTrue => cases hl
  split at hl
  case isTrue => cases hl
  case isFalse hnul hempty hlong =>
    cases hw : t.walk (start path) names with
    | error e => rw [hw] at hl; cases hl
    | ok spot' =>
      rw [hw] at hl
      cases hl
      rw [if_neg hnul, if_neg hempty, if_neg hlong, (walk_put bytes hstart hw hs).2]
      rfl

theorem write_eq_ok_iff {path text : String} {changed : FileTree} :
    t.write path text = .ok changed ↔ ∃ spot place,
      t.locate path (writtenNames path) = .ok spot ∧ spot.target? = some place ∧
        changed = t.put place (utf8 text) := by
  simp only [write]
  split <;> rename_i heq <;> simp [heq, Spot.target?, eq_comm]

def storage : Storage String FileTree where
  Place := List String
  place? t path :=
    match t.locate path (writtenNames path) with
    | .ok (.file place _) => some place
    | _ => none
  file? := find?
  access := access
  read_snd _ _ := rfl
  write_error path text t e h := by
    simp only [access] at h ⊢
    split <;> simp_all
  write_ok path text t h := by
    cases hw : t.write path text with
    | error e => simp [access, hw] at h
    | ok changed =>
      obtain ⟨spot, place, hl, hs, rfl⟩ := write_eq_ok_iff.mp hw
      have hput : (access.write path text t).2 = t.put place (utf8 text) := by
        simp only [access, hw]
      rw [hput]
      refine ⟨place, ?_, find?_put t place _, fun other h => find?_put_of_ne t _ h⟩
      simp only [locate_put _ hl hs]

end FileTree
end StateDiagram
