/-! Text between double quotes. A backslash is written before every backslash and
every double quote, and nothing else changes. Reading the written text back gives the
text and leaves what follows the closing quote untouched (`decode_encode`). -/
namespace StateDiagram
namespace Quoted

def isSpecial (c : Char) : Bool := c = '\\' || c = '"'

def encode : List Char → List Char
  | [] => []
  | c :: cs => if isSpecial c then '\\' :: c :: encode cs else c :: encode cs

/-- Read up to the first double quote without a backslash; a backslash stands for the
character after it. The second component is what follows the quote. -/
def decode : List Char → Option (List Char × List Char)
  | [] => none
  | '"' :: rest => some ([], rest)
  | ['\\'] => none
  | '\\' :: c :: rest => (decode rest).map fun r => (c :: r.1, r.2)
  | c :: rest => (decode rest).map fun r => (c :: r.1, r.2)

@[simp] theorem encode_nil : encode [] = [] := rfl

theorem decode_plain {c : Char} (h : isSpecial c = false) (rest : List Char) :
    decode (c :: rest) = (decode rest).map fun r => (c :: r.1, r.2) := by
  simp only [isSpecial, Bool.or_eq_false_iff, decide_eq_false_iff_not] at h
  rw [decode]
  · exact fun e => h.2 e
  · exact fun e _ => h.1 e
  · exact fun _ _ e _ => h.1 e

theorem decode_encode (s rest : List Char) :
    decode (encode s ++ '"' :: rest) = some (s, rest) := by
  induction s with
  | nil => rfl
  | cons c cs ih =>
    by_cases h : isSpecial c
    · simp [encode, h, decode, ih]
    · simp only [Bool.not_eq_true] at h
      simp [encode, h, decode_plain h, ih]

theorem encode_injective {s t : List Char} (h : encode s = encode t) : s = t := by
  have hs := decode_encode s []
  rw [h, decode_encode] at hs
  exact (congrArg Prod.fst (Option.some.inj hs)).symm

end Quoted

def escape (s : String) : String := String.ofList (Quoted.encode s.toList)

@[simp] theorem toList_escape (s : String) : (escape s).toList = Quoted.encode s.toList := by
  simp [escape]

theorem escape_injective {s t : String} (h : escape s = escape t) : s = t := by
  have hl := congrArg String.toList h
  simp only [toList_escape] at hl
  exact String.toList_inj.mp (Quoted.encode_injective hl)

end StateDiagram
