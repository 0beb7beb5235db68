/-! What a transition of a parser's state machine matches on. -/
namespace StateDiagram

/-- Input bytes to match, or the return code of a callback. -/
inductive Key
  | code (value : Int32)
  | bytes (value : List UInt8)
  deriving DecidableEq, Repr

namespace Key

def singleByte? : Key → Option UInt8
  | bytes [b] => some b
  | _ => none

def isCode : Key → Bool
  | code _ => true
  | bytes _ => false

def describe : Key → String
  | code c => s!"Code({c.toInt})"
  | bytes bs =>
    let numbers := String.intercalate ", " (bs.map fun b => toString b.toNat)
    s!"Bytes([{numbers}])"

end Key
end StateDiagram
