import StateDiagram.Text.Hex

/-! Runs of byte keys. A list of bytes is cut into maximal runs in which each byte is one
above the byte before it. The runs spell the list again (`flatMap_bytes_compress`). -/
namespace StateDiagram

structure ByteRange where
  first : UInt8
  last : UInt8
  first_le_last : first ≤ last
  deriving DecidableEq, Repr

namespace ByteRange

def single (b : UInt8) : ByteRange := ⟨b, b, UInt8.le_refl b⟩

def describe (r : ByteRange) : String :=
  let first := String.ofList (hexPair r.first)
  let last := String.ofList (hexPair r.last)
  s!"Range(0x{first}..=0x{last})"

def bytes (r : ByteRange) : List UInt8 :=
  (List.range' r.first.toNat (r.last.toNat + 1 - r.first.toNat)).map UInt8.ofNat

/-- Put a byte in front of a list of ranges: it joins the first range if it is directly
below it, and is a range of its own otherwise. There is no byte above the highest, so
nothing wraps around. -/
def push (b : UInt8) : List ByteRange → List ByteRange
  | [] => [single b]
  | r :: rs =>
    if h : b.toNat + 1 = r.first.toNat then
      ⟨b, r.last, UInt8.le_iff_toNat_le.mpr
        (by have := UInt8.le_iff_toNat_le.mp r.first_le_last; omega)⟩ :: rs
    else single b :: r :: rs

/-- Cut the bytes, in the order given, into maximal runs. -/
def compress (bytes : List UInt8) : List ByteRange := bytes.foldr push []

@[simp] theorem bytes_single (b : UInt8) : (single b).bytes = [b] := by
  have : b.toNat + 1 - b.toNat = 1 := by omega
  simp [single, bytes, this]

theorem flatMap_bytes_push (b : UInt8) (rs : List ByteRange) :
    (push b rs).flatMap bytes = b :: rs.flatMap bytes := by
  cases rs with
  | nil => simp [push]
  | cons r rs =>
    simp only [push]
    split
    · rename_i h
      have hle := UInt8.le_iff_toNat_le.mp r.first_le_last
      have hl : r.last.toNat + 1 - b.toNat = (r.last.toNat + 1 - r.first.toNat) + 1 := by omega
      simp only [List.flatMap_cons, bytes, hl, List.range'_succ, List.map_cons, h,
        UInt8.ofNat_toNat, List.cons_append]
    · simp

theorem flatMap_bytes_compress (bs : List UInt8) : (compress bs).flatMap bytes = bs := by
  induction bs with
  | nil => rfl
  | cons b bs ih => rw [compress, List.foldr_cons, flatMap_bytes_push]; exact congrArg _ ih

end ByteRange
end StateDiagram
