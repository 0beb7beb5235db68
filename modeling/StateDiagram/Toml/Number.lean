import StateDiagram.Binary64
import StateDiagram.Toml.Reader

/-! Numbers. Integers are signed words of 64 bits; a leading zero is allowed only as the whole
number, before a point or an exponent, and after a mark of another base. -/
namespace StateDiagram
namespace Toml

/-- Whether there is a minus sign, and what follows the sign. -/
def sign : List Char → Bool × List Char
  | '-' :: rest => (true, rest)
  | '+' :: rest => (false, rest)
  | s => (false, s)

/-- Decimal digits without a leading zero. -/
def wholeDigits : Reader (List Char)
  | '0' :: rest => some (['0'], rest)
  | s => digits isDecimal s

def inWordRange (n : Int) : Bool := -9223372036854775808 ≤ n && n < 9223372036854775808

/-- An integer of another base, behind the mark of that base. -/
def baseInteger (base : Nat) (isDigit : Char → Bool) (s : List Char) :
    Option (Int × List Char) := do
  let (ds, rest) ← digits isDigit s
  let n : Int := digitsValue base ds
  if inWordRange n then some (n, rest) else none

def integer : Reader Int
  | '0' :: 'x' :: rest => baseInteger 16 isHexadecimal rest
  | '0' :: 'o' :: rest => baseInteger 8 isOctal rest
  | '0' :: 'b' :: rest => baseInteger 2 isBinary rest
  | s => do
    let (negative, rest) := sign s
    let (ds, rest) ← wholeDigits rest
    let size : Int := digitsValue 10 ds
    let n := if negative then -size else size
    if inWordRange n then some (n, rest) else none

def exponent : Reader Int
  | c :: rest =>
    if c = 'e' || c = 'E' then do
      let (negative, rest) := sign rest
      let (ds, rest) ← digits isDecimal rest
      let size : Int := digitsValue 10 ds
      some (if negative then -size else size, rest)
    else none
  | [] => none

def fraction : Reader (List Char)
  | '.' :: rest => digits isDecimal rest
  | _ => none

def decimal (s : List Char) : Option (Binary64 × List Char) := do
  let (negative, rest) := sign s
  let (whole, rest) ← wholeDigits rest
  let value (places : List Char) (power : Int) : Binary64 :=
    .ofDecimal negative (digitsValue 10 (whole ++ places)) (power - places.length)
  match fraction rest with
  | none =>
    let (power, rest) ← exponent rest
    some (value [] power, rest)
  | some (places, rest) =>
    match exponent rest with
    | none => some (value places 0, rest)
    | some (power, rest) => some (value places power, rest)

def namedFloat (s : List Char) : Option (Binary64 × List Char) :=
  match sign s with
  | (negative, 'i' :: 'n' :: 'f' :: rest) => some (.infinity negative, rest)
  | (_, 'n' :: 'a' :: 'n' :: rest) => some (.nan, rest)
  | _ => none

/-- A floating-point number. One that is too great is refused; one that is too small a negative
number is taken as minus infinity. -/
def float (s : List Char) : Option (Binary64 × List Char) :=
  match decimal s with
  | some (x, rest) => if x = .infinity false then none else some (x, rest)
  | none => namedFloat s

end Toml
end StateDiagram
