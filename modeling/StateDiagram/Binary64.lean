/-! Binary floating-point numbers of 64 bits: the nearest one to a decimal, and the shortest
decimal that reads back as a given one. All arithmetic is on whole numbers. -/
namespace StateDiagram

/-- A finite number is its significand times a power of two. -/
inductive Binary64
  | nan
  | infinity (negative : Bool)
  | finite (negative : Bool) (significand : Nat) (exponent : Int)
  deriving DecidableEq, Repr

namespace Binary64

def power (base exponent : Nat) : Nat := Nat.pow base exponent

/-- Significands are below this, which is two to the power 53. -/
def significandBound : Nat := 9007199254740992

def leastExponent : Int := -1074

def greatestExponent : Int := 971

/-- The whole number nearest to a ratio; of two, the even one. -/
def roundRatio (num den : Nat) : Nat :=
  let q := num / den
  let twice := 2 * (num % den)
  if twice < den ∨ (twice = den ∧ q % 2 = 0) then q else q + 1

/-- The greatest power of two that is not above a positive ratio. -/
def log2Ratio (num den : Nat) : Int :=
  let guess : Int := Nat.log2 num - Nat.log2 den
  if den * power 2 guess.toNat ≤ num * power 2 (-guess).toNat then guess else guess - 1

def ofRatio (negative : Bool) (num den : Nat) : Binary64 :=
  let exponent := max (log2Ratio num den - 52) leastExponent
  let significand := roundRatio (num * power 2 (-exponent).toNat) (den * power 2 exponent.toNat)
  let (significand, exponent) :=
    if significand = significandBound then (significand / 2, exponent + 1)
    else (significand, exponent)
  if greatestExponent < exponent then infinity negative
  else finite negative significand exponent

/-- The number nearest to `digits` times a power of ten. Far outside the range of the format
the power is not worked out. -/
def ofDecimal (negative : Bool) (digits : Nat) (exponent : Int) : Binary64 :=
  let magnitude : Int := (Nat.toDigits 10 digits).length + exponent
  if digits = 0 ∨ magnitude < -330 then finite negative 0 leastExponent
  else if 310 < magnitude then infinity negative
  else ofRatio negative (digits * power 10 exponent.toNat) (power 10 (-exponent).toNat)

/-- The least `e` such that the positive ratio is below ten to the power `e`. -/
def decimalMagnitude (num den : Nat) : Int :=
  let guess : Int := (Nat.toDigits 10 num).length - (Nat.toDigits 10 den).length
  if num * power 10 (-guess).toNat < den * power 10 guess.toNat then guess else guess + 1

/-- The multiple of ten to the power `place` that is closest to the number, as far as it reads
back as the number. Of the two neighbours, the upper one wins a tie. -/
def neighbour? (significand : Nat) (exponent place : Int) : Option Nat :=
  let unit := power 10 place.toNat * power 2 (2 - exponent).toNat
  let quarter := power 2 (exponent - 2).toNat * power 10 (-place).toNat
  let value := 4 * significand * quarter
  let belowWidth := if significand * 2 = significandBound ∧ leastExponent < exponent then 1 else 2
  let low := (4 * significand - belowWidth) * quarter
  let high := (4 * significand + 2) * quarter
  let readsBack (x : Nat) : Bool :=
    if significand % 2 = 0 then low ≤ x && x ≤ high else low < x && x < high
  let lower := value / unit
  let upper := lower + 1
  match readsBack (lower * unit), readsBack (upper * unit) with
  | true, true => some (if value - lower * unit < upper * unit - value then lower else upper)
  | true, false => some lower
  | false, true => some upper
  | false, false => none

/-- The fewest digits that read back as a positive number, with the power of ten of the last. -/
def shortest (significand : Nat) (exponent : Int) : Nat × Int :=
  let magnitude :=
    decimalMagnitude (significand * power 2 exponent.toNat) (power 2 (-exponent).toNat)
  let found := (List.range' 1 17).findSome? fun (count : Nat) =>
    let place := magnitude - (count : Int)
    (neighbour? significand exponent place).map fun d => (d, place)
  let (digits, place) := found.getD (0, 0)
  if digits % 10 = 0 then (digits / 10, place + 1) else (digits, place)

/-- A decimal without an exponent, always with a point. -/
def positional (digits : Nat) (place : Int) : List Char :=
  let ds := Nat.toDigits 10 digits
  if 0 ≤ place then ds ++ List.replicate place.toNat '0' ++ ['.', '0']
  else
    let places := (-place).toNat
    if places < ds.length then ds.take (ds.length - places) ++ '.' :: ds.drop (ds.length - places)
    else '0' :: '.' :: List.replicate (places - ds.length) '0' ++ ds

def render : Binary64 → String
  | nan => "NaN"
  | infinity negative => if negative then "-inf" else "inf"
  | finite negative significand exponent =>
    let (digits, place) := if significand = 0 then (0, 0) else shortest significand exponent
    let sign := if negative then "-" else ""
    sign ++ String.ofList (positional digits place)

end Binary64
end StateDiagram
