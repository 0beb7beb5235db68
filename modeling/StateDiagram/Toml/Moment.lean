import StateDiagram.Toml.Reader

/-! Dates and times of day. A date must exist in the calendar. -/
namespace StateDiagram
namespace Toml

def fixedNumber (count : Nat) (s : List Char) : Option (Nat × List Char) :=
  let ds := s.take count
  if ds.length = count ∧ ds.all isDecimal then some (digitsValue 10 ds, s.drop count) else none

/-- What follows a given character. -/
def after? (c : Char) : List Char → Option (List Char)
  | d :: rest => if d = c then some rest else none
  | [] => none

def isLeapYear (year : Nat) : Bool := year % 4 = 0 && (year % 100 ≠ 0 || year % 400 = 0)

def daysIn (year month : Nat) : Nat :=
  if month = 2 then if isLeapYear year then 29 else 28
  else if month = 4 ∨ month = 6 ∨ month = 9 ∨ month = 11 then 30
  else 31

/-- What follows a date. -/
def date? (s : List Char) : Option (List Char) := do
  let (year, rest) ← fixedNumber 4 s
  let (month, rest) ← fixedNumber 2 (← after? '-' rest)
  let (day, rest) ← fixedNumber 2 (← after? '-' rest)
  if 1 ≤ month ∧ month ≤ 12 ∧ 1 ≤ day ∧ day ≤ daysIn year month then some rest else none

def hoursMinutes? (s : List Char) : Option (List Char) := do
  let (hour, rest) ← fixedNumber 2 s
  let (minute, rest) ← fixedNumber 2 (← after? ':' rest)
  if hour ≤ 23 ∧ minute ≤ 59 then some rest else none

/-- What follows a time of day. A minute may have a leap second; fractions are optional. -/
def time? (s : List Char) : Option (List Char) := do
  let (second, rest) ← fixedNumber 2 (← after? ':' (← hoursMinutes? s))
  if second ≤ 60 then
    match rest with
    | '.' :: c :: more => if isDecimal c then some (more.dropWhile isDecimal) else some rest
    | _ => some rest
  else none

/-- What follows the distance from world time, if one is given. -/
def skipOffset (s : List Char) : List Char :=
  match s with
  | c :: rest =>
    if c = 'Z' || c = 'z' then rest
    else if c = '+' || c = '-' then (hoursMinutes? rest).getD s
    else s
  | [] => []

def moment? (s : List Char) : Option (List Char) :=
  match date? s with
  | none => time? s
  | some rest =>
    match rest with
    | c :: more =>
      if c = 'T' || c = 't' || c = ' ' then
        match time? more with
        | some after => some (skipOffset after)
        | none => some rest
      else some rest
    | [] => some []

end Toml
end StateDiagram
