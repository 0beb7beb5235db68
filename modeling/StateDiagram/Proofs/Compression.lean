import StateDiagram.Proofs.Runs

/-! The ranges of a list of bytes are canonical: no other ranges that cannot be joined spell the
list, and no fewer ranges do (`ByteRange.compress_canonical`). A scan from the left, which keeps the
run it is in and the runs that are over, finds them. -/
namespace StateDiagram
namespace ByteRange

theorem apart_iff {r s : ByteRange} : r.Apart s ↔ r.last.toNat + 1 ≠ s.first.toNat := by
  simp [Apart, follows]

theorem bytes_injective : Function.Injective bytes := by
  intro r s h
  have hfirst : r.first = s.first := by
    rw [← r.head_bytes, ← s.head_bytes]
    simp only [h]
  have hlast : r.last = s.last := by
    rw [← r.getLast_bytes, ← s.getLast_bytes]
    simp only [h]
  cases r
  cases s
  simp_all

/-- Ranges that cannot be joined are told by what they spell. -/
theorem compress_flatMap_bytes {rs : List ByteRange} (h : rs.IsChain Apart) :
    compress (rs.flatMap bytes) = rs := by
  apply List.map_injective_iff.mpr bytes_injective
  rw [map_bytes_compress, map_bytes_of_isChain h]

theorem head?_push (b : UInt8) (rs : List ByteRange) :
    (push b rs).head?.map (·.first) = some b := by
  cases rs with
  | nil => rfl
  | cons r rs =>
    simp only [push]
    split <;> rfl

theorem length_push_le (b : UInt8) (rs : List ByteRange) :
    (push b rs).length ≤ rs.length + 1 := by
  cases rs with
  | nil => rfl
  | cons r rs =>
    simp only [push]
    split <;> simp

/-- A byte directly below the first range needs no range of its own. -/
theorem length_push_of_follows {b c : UInt8} {rs : List ByteRange}
    (hrs : rs.head?.map (·.first) = some c) (h : follows b c) : (push b rs).length = rs.length := by
  cases rs with
  | nil => cases hrs
  | cons r rs =>
    obtain rfl : r.first = c := Option.some.inj hrs
    rw [follows, beq_iff_eq] at h
    simp [push, h]

/-- A run costs at most one range, whatever comes after it. -/
theorem length_foldr_push_le {run : List UInt8} (h : run.IsChain fun a b => follows a b)
    (rs : List ByteRange) : (run.foldr push rs).length ≤ rs.length + 1 := by
  induction run with
  | nil => exact Nat.le_succ _
  | cons b run ih =>
    cases run with
    | nil => exact length_push_le b rs
    | cons c run =>
      rw [List.isChain_cons_cons] at h
      have hhead : ((c :: run).foldr push rs).head?.map (·.first) = some c := head?_push c _
      rw [List.foldr_cons, length_push_of_follows hhead h.1]
      exact ih h.2

theorem length_compress_le (rs : List ByteRange) :
    (compress (rs.flatMap bytes)).length ≤ rs.length := by
  induction rs with
  | nil => rfl
  | cons r rs ih =>
    have hrun := length_foldr_push_le r.isChain_bytes (compress (rs.flatMap bytes))
    rw [List.flatMap_cons, compress, List.foldr_append, List.length_cons]
    exact hrun.trans (Nat.add_le_add_right ih 1)

def bounds (r : ByteRange) : UInt8 × UInt8 := (r.first, r.last)

/-- The byte above another. There is none above the highest. -/
def above? (b : UInt8) : Option UInt8 := if b = 0xff then none else some (b + 1)

theorem above?_eq_some_iff {a b : UInt8} : above? a = some b ↔ follows a b := by
  have ha := a.toNat_lt
  have hmax : a = 0xff ↔ a.toNat = 255 := by rw [← UInt8.toNat_inj]; rfl
  rw [follows, beq_iff_eq, above?]
  split
  · rename_i h
    have hb := b.toNat_lt
    have := hmax.mp h
    simp only [reduceCtorEq, false_iff]
    omega
  · rename_i h
    rw [hmax] at h
    rw [Option.some_inj, ← UInt8.toNat_inj, UInt8.toNat_add]
    have hone : (1 : UInt8).toNat = 1 := rfl
    omega

/-- A scan that is under way. Runs are told by their first and their last byte. -/
structure Scan where
  /-- The runs that are over, in order. -/
  done : List (UInt8 × UInt8)
  /-- The run that may go on. -/
  run : Option (UInt8 × UInt8)

namespace Scan

/-- Take the next byte: it carries the run on if it is directly above its last byte, and
begins a run of its own otherwise. -/
def step (s : Scan) (key : UInt8) : Scan :=
  match s.run with
  | none => ⟨s.done, some (key, key)⟩
  | some (first, last) =>
    if above? last = some key then ⟨s.done, some (first, key)⟩
    else ⟨s.done ++ [(first, last)], some (key, key)⟩

def finish (s : Scan) : List (UInt8 × UInt8) := s.done ++ s.run.toList

structure Holds (s : Scan) (keys : List UInt8) : Prop where
  done_eq : s.done = (compress keys).dropLast.map bounds
  run_eq : s.run = (compress keys).getLast?.map bounds

end Scan

def scan (keys : List UInt8) : List (UInt8 × UInt8) := (keys.foldl Scan.step ⟨[], none⟩).finish

theorem first_le_of_follows {r : ByteRange} {key : UInt8} (h : follows r.last key) :
    r.first ≤ key := by
  have hle := UInt8.le_iff_toNat_le.mp r.first_le_last
  rw [follows, beq_iff_eq] at h
  exact UInt8.le_iff_toNat_le.mpr (by omega)

def extend (r : ByteRange) (key : UInt8) (h : follows r.last key) : ByteRange :=
  ⟨r.first, key, first_le_of_follows h⟩

theorem bytes_extend (r : ByteRange) {key : UInt8} (h : follows r.last key) :
    (r.extend key h).bytes = r.bytes ++ [key] := by
  have hle := UInt8.le_iff_toNat_le.mp r.first_le_last
  have hkey : r.last.toNat + 1 = key.toNat := by rwa [follows, beq_iff_eq] at h
  have hlength : key.toNat + 1 - r.first.toNat = (r.last.toNat + 1 - r.first.toNat) + 1 := by omega
  have hend : r.first.toNat + (r.last.toNat + 1 - r.first.toNat) = key.toNat := by omega
  simp only [bytes, extend, hlength, List.range'_1_concat, List.map_append, hend, List.map_cons,
    List.map_nil, UInt8.ofNat_toNat]

theorem compress_concat_of_follows {keys : List UInt8} {rs : List ByteRange} {r : ByteRange}
    {key : UInt8} (hkeys : compress keys = rs ++ [r]) (h : follows r.last key) :
    compress (keys ++ [key]) = rs ++ [r.extend key h] := by
  have hchain := isChain_compress keys
  rw [hkeys, List.isChain_append] at hchain
  have hlast : ∀ x ∈ rs.getLast?, ∀ y ∈ [r.extend key h].head?, x.Apart y := by
    intro x hx y hy
    obtain rfl : r.extend key h = y := by simpa using hy
    exact hchain.2.2 x hx r rfl
  have hchain' : (rs ++ [r.extend key h]).IsChain Apart :=
    List.isChain_append.mpr ⟨hchain.1, List.isChain_singleton _, hlast⟩
  rw [← compress_flatMap_bytes hchain', ← flatMap_bytes_compress keys, hkeys]
  simp [bytes_extend]

theorem compress_concat_of_not_follows {keys : List UInt8} {rs : List ByteRange} {r : ByteRange}
    {key : UInt8} (hkeys : compress keys = rs ++ [r]) (h : ¬follows r.last key) :
    compress (keys ++ [key]) = rs ++ [r, single key] := by
  have hchain := isChain_compress keys
  have hapart : r.Apart (single key) := by simpa [Apart, single] using h
  have hchain' : (compress keys ++ [single key]).IsChain Apart :=
    List.isChain_append.mpr ⟨hchain, List.isChain_singleton _, by simpa [hkeys] using hapart⟩
  rw [hkeys, List.append_assoc, List.singleton_append] at hchain'
  rw [← compress_flatMap_bytes hchain', ← flatMap_bytes_compress keys, hkeys]
  simp

namespace Scan

theorem holds_start : Holds ⟨[], none⟩ [] := ⟨rfl, rfl⟩

theorem Holds.step {s : Scan} {keys : List UInt8} (h : s.Holds keys) (key : UInt8) :
    (s.step key).Holds (keys ++ [key]) := by
  rcases s with ⟨done, run⟩
  obtain ⟨rfl, rfl⟩ : done = _ ∧ run = _ := ⟨h.done_eq, h.run_eq⟩
  rcases List.eq_nil_or_concat (compress keys) with hnil | ⟨rs, r, hrs⟩
  · have hkeys := flatMap_bytes_compress keys
    rw [hnil] at hkeys
    subst hkeys
    exact ⟨rfl, rfl⟩
  · rw [List.concat_eq_append] at hrs
    by_cases hr : follows r.last key
    · have hkeys := compress_concat_of_follows hrs hr
      constructor <;> simp [Scan.step, hrs, hkeys, bounds, above?_eq_some_iff, hr, extend]
    · have hkeys := compress_concat_of_not_follows hrs hr
      constructor <;> simp [Scan.step, hrs, hkeys, bounds, above?_eq_some_iff, hr, single]

theorem Holds.foldl {s : Scan} {keys : List UInt8} (h : s.Holds keys) (more : List UInt8) :
    (more.foldl Scan.step s).Holds (keys ++ more) := by
  induction more generalizing s keys with
  | nil => simpa using h
  | cons key more ih => simpa using ih (h.step key)

theorem Holds.finish_eq {s : Scan} {keys : List UInt8} (h : s.Holds keys) :
    s.finish = (compress keys).map bounds := by
  rw [finish, h.done_eq, h.run_eq]
  rcases List.eq_nil_or_concat (compress keys) with hnil | ⟨rs, r, hrs⟩
  · simp [hnil]
  · simp [hrs]

end Scan

theorem scan_eq (keys : List UInt8) : scan keys = (compress keys).map bounds :=
  (Scan.holds_start.foldl keys).finish_eq

/-- The ranges of a list of bytes are the only ones that spell it and cannot be joined, and none
that spell it are fewer. A scan from the left finds them. -/
theorem compress_canonical (keys : List UInt8) :
    (∀ rs : List ByteRange, rs = compress keys ↔
      rs.flatMap bytes = keys ∧ rs.IsChain fun r s => r.last.toNat + 1 ≠ s.first.toNat) ∧
      (∀ rs : List ByteRange, rs.flatMap bytes = keys → (compress keys).length ≤ rs.length) ∧
      (∀ rs : List ByteRange, (rs.IsChain fun r s => r.last.toNat + 1 ≠ s.first.toNat) →
        compress (rs.flatMap bytes) = rs) ∧
      scan keys = (compress keys).map bounds ∧ ∀ p ∈ scan keys, p.1 ≤ p.2 := by
  have hcanonical (rs : List ByteRange)
      (h : rs.IsChain fun r s => r.last.toNat + 1 ≠ s.first.toNat) :
      compress (rs.flatMap bytes) = rs :=
    compress_flatMap_bytes (h.imp fun _ _ => apart_iff.mpr)
  refine ⟨fun rs => ⟨?_, ?_⟩, ?_, hcanonical, scan_eq keys, ?_⟩
  · rintro rfl
    exact ⟨flatMap_bytes_compress keys, (isChain_compress keys).imp fun _ _ => apart_iff.mp⟩
  · rintro ⟨rfl, h⟩
    exact (hcanonical rs h).symm
  · rintro rs rfl
    exact length_compress_le rs
  · intro p hp
    rw [scan_eq] at hp
    obtain ⟨r, _, rfl⟩ := List.mem_map.mp hp
    exact r.first_le_last

/-- There is no byte above the highest, and a byte that comes twice begins a run of its own. -/
example : scan [0xfe, 0xff, 0x00, 0x00, 0x01] = [(0xfe, 0xff), (0x00, 0x00), (0x00, 0x01)] := by
  decide

end ByteRange
end StateDiagram
