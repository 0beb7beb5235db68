import StateDiagram.ByteRange
import StateDiagram.Key
import StateDiagram.Text.Hex
import StateDiagram.Text.Utf8

/-! The text on drawn edges. Labels are plain text here; the document escapes them. No label
of a byte sequence holds a control character (`not_isControl_of_mem_pieceText`). -/
namespace StateDiagram
namespace Label

/-- Printable ASCII stands between single quotes, as do the escapes of line feed, carriage
return and tab; every other byte is written in hexadecimal. -/
def byte (b : UInt8) : String :=
  if b = 0x0a then "'\\n'"
  else if b = 0x0d then "'\\r'"
  else if b = 0x09 then "'\\t'"
  else if 0x20 ≤ b ∧ b ≤ 0x7e then s!"'{Char.ofNat b.toNat}'"
  else "0x" ++ String.ofList (hexPair b)

def range (first last : UInt8) : String :=
  if first = last then byte first else byte first ++ ":" ++ byte last

def byteRange (r : ByteRange) : String := range r.first r.last

def code (c : Int32) : String := s!"code={c.toInt}"

/-- What a fallback is called, by whether it leaves the input where it is. -/
def fallback (stays : Bool) : String := if stays then "otherwise" else "skipTo"

def separator : String := "|"

def join (labels : List String) : String := String.intercalate separator labels

def isControl (c : Char) : Bool := c.toNat < 0x20 || (0x7f ≤ c.toNat && c.toNat ≤ 0x9f)

def escapedByte (b : UInt8) : List Char := '\\' :: 'x' :: hexPair b

/-- How a character of a byte sequence is written. A backslash stands for itself. -/
def charText (c : Char) : List Char :=
  if c = '\n' then ['\\', 'n']
  else if c = '\r' then ['\\', 'r']
  else if c = '\t' then ['\\', 't']
  else if isControl c then (charBytes c).flatMap escapedByte
  else [c]

def pieceText : Piece → List Char
  | .char c => charText c
  | .stray b => escapedByte b

def sequenceText (bytes : List UInt8) : List Char := (pieces bytes).flatMap pieceText

/-- A byte sequence between single quotes: well-formed text as it is, except for control
characters, which are escaped like bytes that belong to no character. -/
def sequence (bytes : List UInt8) : String := s!"'{String.ofList (sequenceText bytes)}'"

theorem not_isControl_hexDigit : ∀ n < 16, isControl (hexDigit n) = false := by decide

theorem not_isControl_of_mem_escapedByte {b : UInt8} {c : Char} (h : c ∈ escapedByte b) :
    isControl c = false := by
  have hb := b.toNat_lt
  simp only [escapedByte, hexPair, List.mem_cons, List.not_mem_nil, or_false] at h
  rcases h with rfl | rfl | rfl | rfl
  · decide
  · decide
  · exact not_isControl_hexDigit _ (by omega)
  · exact not_isControl_hexDigit _ (by omega)

theorem not_isControl_of_mem_charText {c x : Char} (h : x ∈ charText c) :
    isControl x = false := by
  unfold charText at h
  split at h
  · simp only [List.mem_cons, List.not_mem_nil, or_false] at h
    rcases h with rfl | rfl <;> decide
  · split at h
    · simp only [List.mem_cons, List.not_mem_nil, or_false] at h
      rcases h with rfl | rfl <;> decide
    · split at h
      · simp only [List.mem_cons, List.not_mem_nil, or_false] at h
        rcases h with rfl | rfl <;> decide
      · split at h
        · obtain ⟨b, _, hb⟩ := List.mem_flatMap.mp h
          exact not_isControl_of_mem_escapedByte hb
        · rename_i hc
          rw [List.mem_singleton.mp h]
          simpa using hc

theorem not_isControl_of_mem_pieceText {p : Piece} {x : Char} (h : x ∈ pieceText p) :
    isControl x = false := by
  cases p with
  | char c => exact not_isControl_of_mem_charText h
  | stray b => exact not_isControl_of_mem_escapedByte h

end Label
end StateDiagram
