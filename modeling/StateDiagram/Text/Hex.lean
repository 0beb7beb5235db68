/-! Bytes as two lower-case hexadecimal digits. -/
namespace StateDiagram

def hexDigit (n : Nat) : Char := Nat.digitChar n

/-- The two digits of a byte, the high one first. -/
def hexPair (b : UInt8) : List Char := [hexDigit (b.toNat / 16), hexDigit (b.toNat % 16)]

/-- The value of a lower-case hexadecimal digit. -/
def hexValue? (c : Char) : Option Nat :=
  if '0' ≤ c ∧ c ≤ '9' then some (c.toNat - 48)
  else if 'a' ≤ c ∧ c ≤ 'f' then some (c.toNat - 87)
  else none

theorem hexValue?_hexDigit : ∀ n < 16, hexValue? (hexDigit n) = some n := by decide

theorem isSome_hexValue?_iff (c : Char) : (hexValue? c).isSome ↔
    (48 ≤ c.toNat ∧ c.toNat ≤ 57) ∨ (97 ≤ c.toNat ∧ c.toNat ≤ 102) := by
  have hle (a b : Char) : a ≤ b ↔ a.toNat ≤ b.toNat := UInt32.le_iff_toNat_le
  have h0 : '0'.toNat = 48 := rfl
  have h9 : '9'.toNat = 57 := rfl
  have ha : 'a'.toNat = 97 := rfl
  have hf : 'f'.toNat = 102 := rfl
  simp only [hexValue?, hle, h0, h9, ha, hf]
  split
  · simp [*]
  · split <;> simp [*]

def hexByte? (high low : Char) : Option UInt8 := do
  let h ← hexValue? high
  let l ← hexValue? low
  return UInt8.ofNat (16 * h + l)

theorem hexByte?_hexPair (b : UInt8) :
    hexByte? (hexDigit (b.toNat / 16)) (hexDigit (b.toNat % 16)) = some b := by
  have hb := b.toNat_lt
  have hhigh := hexValue?_hexDigit (b.toNat / 16) (by omega)
  have hlow := hexValue?_hexDigit (b.toNat % 16) (by omega)
  have hdigits : UInt8.ofNat (16 * (b.toNat / 16) + b.toNat % 16) = b := by
    rw [Nat.div_add_mod, UInt8.ofNat_toNat]
  simp only [hexByte?, hhigh, hlow, Option.bind_eq_bind, Option.bind_some, hdigits, Option.pure_def]

theorem isSome_hexByte?_iff (high low : Char) :
    (hexByte? high low).isSome ↔ (hexValue? high).isSome ∧ (hexValue? low).isSome := by
  unfold hexByte?
  cases hexValue? high <;> cases hexValue? low <;> simp

end StateDiagram
