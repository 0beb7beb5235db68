import Mathlib.Data.List.SplitBy
import StateDiagram.Label

/-! The ranges of a list of bytes are its maximal runs of bytes that each follow the one before
(`map_bytes_compress`). -/
namespace StateDiagram
namespace ByteRange

/-- Whether a byte is directly above another. There is none above the highest. -/
def follows (a b : UInt8) : Bool := a.toNat + 1 == b.toNat

theorem length_bytes (r : ByteRange) : r.bytes.length = r.last.toNat + 1 - r.first.toNat := by
  simp [bytes]

theorem bytes_ne_nil (r : ByteRange) : r.bytes ≠ [] := by
  have hle := UInt8.le_iff_toNat_le.mp r.first_le_last
  intro h
  have hlength := r.length_bytes
  rw [h, List.length_nil] at hlength
  omega

theorem toNat_getElem_bytes (r : ByteRange) {i : Nat} (h : i < r.bytes.length) :
    (r.bytes[i]).toNat = r.first.toNat + i := by
  have hlast := r.last.toNat_lt
  have hlength := r.length_bytes
  have hsmall : r.first.toNat + i < 256 := by omega
  simp [bytes, Nat.mod_eq_of_lt hsmall]

theorem head_bytes (r : ByteRange) : r.bytes.head r.bytes_ne_nil = r.first := by
  have hpos := List.length_pos_iff.mpr r.bytes_ne_nil
  apply UInt8.toNat_inj.mp
  rw [List.head_eq_getElem, toNat_getElem_bytes, Nat.add_zero]

theorem getLast_bytes (r : ByteRange) : r.bytes.getLast r.bytes_ne_nil = r.last := by
  have hle := UInt8.le_iff_toNat_le.mp r.first_le_last
  apply UInt8.toNat_inj.mp
  rw [List.getLast_eq_getElem, toNat_getElem_bytes, length_bytes]
  omega

theorem isChain_bytes (r : ByteRange) : r.bytes.IsChain fun a b => follows a b := by
  rw [List.isChain_iff_getElem]
  intro i hi
  rw [follows, beq_iff_eq, toNat_getElem_bytes, toNat_getElem_bytes]
  omega

/-- A range cannot be continued by the next one. -/
def Apart (r s : ByteRange) : Prop := follows r.last s.first = false

theorem isChain_push {b : UInt8} {rs : List ByteRange} (h : rs.IsChain Apart) :
    (push b rs).IsChain Apart := by
  cases rs with
  | nil => exact List.isChain_singleton _
  | cons r rs =>
    by_cases hb : b.toNat + 1 = r.first.toNat
    · simp only [push, hb, dite_true]
      cases rs with
      | nil => exact List.isChain_singleton _
      | cons s rs =>
        rw [List.isChain_cons_cons] at h ⊢
        exact h
    · simp only [push, hb, dite_false]
      exact List.isChain_cons_cons.mpr ⟨by simpa [Apart, follows, single] using hb, h⟩

theorem isChain_compress (bs : List UInt8) : (compress bs).IsChain Apart := by
  induction bs with
  | nil => exact List.isChain_nil
  | cons b bs ih => exact isChain_push ih

theorem map_bytes_of_isChain {rs : List ByteRange} (h : rs.IsChain Apart) :
    rs.map bytes = (rs.flatMap bytes).splitBy follows := by
  symm
  rw [List.splitBy_eq_iff]
  refine ⟨?_, ?_, ?_, ?_⟩
  · rw [← List.flatMap_def]
  · intro hnil
    obtain ⟨r, _, hr⟩ := List.mem_map.mp hnil
    exact r.bytes_ne_nil hr
  · intro m hm
    obtain ⟨r, _, rfl⟩ := List.mem_map.mp hm
    exact r.isChain_bytes
  · rw [List.isChain_map]
    refine h.imp fun r s hrs => ⟨r.bytes_ne_nil, s.bytes_ne_nil, ?_⟩
    rw [getLast_bytes, head_bytes]
    exact hrs

theorem map_bytes_compress (bs : List UInt8) : (compress bs).map bytes = bs.splitBy follows := by
  rw [map_bytes_of_isChain (isChain_compress bs), flatMap_bytes_compress]

end ByteRange

def Label.run : List UInt8 → String
  | [] => ""
  | b :: bs => range b ((b :: bs).getLast (List.cons_ne_nil b bs))

theorem Label.run_eq_range {bs : List UInt8} (h : bs ≠ []) :
    Label.run bs = Label.range (bs.head h) (bs.getLast h) := by
  cases bs with
  | nil => exact absurd rfl h
  | cons b bs => rfl

theorem Label.run_bytes (r : ByteRange) : Label.run r.bytes = Label.byteRange r := by
  rw [Label.run_eq_range r.bytes_ne_nil, r.head_bytes, r.getLast_bytes, Label.byteRange]

theorem Label.map_byteRange_compress (bs : List UInt8) :
    (ByteRange.compress bs).map Label.byteRange = (bs.splitBy ByteRange.follows).map Label.run := by
  rw [← ByteRange.map_bytes_compress, List.map_map]
  exact List.map_congr_left fun r _ => (Label.run_bytes r).symm

end StateDiagram
