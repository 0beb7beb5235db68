import StateDiagram.Description.Declaration
import StateDiagram.Toml.Document

/-! From configuration values to a description. A record is a table of its fields or an array
that lists them in order. The fields of a table are looked at in the order in which they appear;
a field that is not known is refused, and a missing one is noticed at the end. -/
namespace StateDiagram

open Toml (Value)

inductive ShapeFault
  | unknownField (name : String) (known : List String)
  | missingField (name : String)
  | wrongType (found : Value) (wanted : String)
  | outOfRange (number : Int) (wanted : String)
  /-- A record written as an array ends before a field that it must have. -/
  | tooShort (length : Nat) (record : String) (fieldCount : Nat)
  deriving Repr

def Toml.Value.describe : Value → String
  | .string s => s!"string {Text.literal s}"
  | .integer n => s!"integer `{n}`"
  | .float x => s!"floating point `{x.render}`"
  | .boolean b => s!"boolean `{b}`"
  | .moment => "map"
  | .array _ => "sequence"
  | .table _ => "map"

namespace ShapeFault

def choice (known : List String) : String :=
  match known.map fun name => s!"`{name}`" with
  | [] => "there are no fields"
  | [name] => s!"expected {name}"
  | [first, second] => s!"expected {first} or {second}"
  | names => "expected one of " ++ String.intercalate ", " names

def message : ShapeFault → String
  | unknownField name known => s!"unknown field `{name}`, {choice known}"
  | missingField name => s!"missing field `{name}`"
  | wrongType found wanted => s!"invalid type: {found.describe}, expected {wanted}"
  | outOfRange number wanted => s!"invalid value: integer `{number}`, expected {wanted}"
  | tooShort length record fieldCount =>
    s!"invalid length {length}, expected {record} with {fieldCount} elements"

end ShapeFault

namespace Decode

def string : Value → Except ShapeFault String
  | .string s => .ok s
  | v => .error (.wrongType v "a string")

def boolean : Value → Except ShapeFault Bool
  | .boolean b => .ok b
  | v => .error (.wrongType v "a boolean")

def byte : Value → Except ShapeFault UInt8
  | .integer n =>
    if 0 ≤ n ∧ n < 256 then .ok (UInt8.ofNat n.toNat) else .error (.outOfRange n "u8")
  | v => .error (.wrongType v "u8")

def word : Value → Except ShapeFault Int32
  | .integer n =>
    if -2147483648 ≤ n ∧ n < 2147483648 then .ok (Int32.ofInt n) else .error (.outOfRange n "i32")
  | v => .error (.wrongType v "i32")

def list {α : Type} (item : Value → Except ShapeFault α) : Value → Except ShapeFault (List α)
  | .array items => items.mapM item
  | v => .error (.wrongType v "a sequence")

/-- The key under which a date or time shows when it is taken for a table. -/
def momentField : String := "$__toml_private_datetime"

def itemAt {α : Type} (record : String) (fieldCount : Nat) (items : List Value) (i : Nat)
    (decode : Value → Except ShapeFault α) : Except ShapeFault α :=
  match items[i]? with
  | some v => decode v
  | none => .error (.tooShort i record fieldCount)

def itemOr {α : Type} (items : List Value) (i : Nat) (default : α)
    (decode : Value → Except ShapeFault α) : Except ShapeFault α :=
  match items[i]? with
  | some v => decode v
  | none => .ok default

def required {α : Type} (name : String) : Option α → Except ShapeFault α
  | some a => .ok a
  | none => .error (.missingField name)

end Decode

open Decode

inductive EdgeField
  | target (id : String)
  | literal (text : String)
  | anyOf (text : String)
  | bytes (value : List UInt8)
  | code (value : Int32)
  | peek (value : Bool)
  deriving DecidableEq, Repr

namespace EdgeField

def decode : String × Value → Except ShapeFault EdgeField
  | ("target", v) => (string v).map target
  | ("match", v) => (string v).map literal
  | ("any_of", v) => (string v).map anyOf
  | ("bytes", v) => (list byte v).map bytes
  | ("code", v) => (word v).map code
  | ("peek", v) => (boolean v).map peek
  | (name, _) => .error (.unknownField name EdgeEntry.fieldNames)

def target? : EdgeField → Option String
  | target id => some id
  | _ => none

def literal? : EdgeField → Option String
  | literal text => some text
  | _ => none

def anyOf? : EdgeField → Option String
  | anyOf text => some text
  | _ => none

def bytes? : EdgeField → Option (List UInt8)
  | bytes value => some value
  | _ => none

def code? : EdgeField → Option Int32
  | code value => some value
  | _ => none

def peek? : EdgeField → Option Bool
  | peek value => some value
  | _ => none

end EdgeField

namespace EdgeEntry

def recordName : String := "struct EdgeDescription"

def ofFields (fields : List EdgeField) : Except ShapeFault EdgeEntry := do
  return {
    target := ← required "target" (fields.findSome? EdgeField.target?)
    literal := fields.findSome? EdgeField.literal?
    anyOf := fields.findSome? EdgeField.anyOf?
    bytes := fields.findSome? EdgeField.bytes?
    code := fields.findSome? EdgeField.code?
    peek := (fields.findSome? EdgeField.peek?).getD false }

/-- All fields but the last must be there; items after the last are passed over. -/
def ofItems (items : List Value) : Except ShapeFault EdgeEntry := do
  let size := EdgeEntry.fieldNames.length
  return {
    target := ← itemAt recordName size items 0 string
    literal := some (← itemAt recordName size items 1 string)
    anyOf := some (← itemAt recordName size items 2 string)
    bytes := some (← itemAt recordName size items 3 (list byte))
    code := some (← itemAt recordName size items 4 word)
    peek := ← itemOr items 5 false boolean }

def decode : Value → Except ShapeFault EdgeEntry
  | .table entries => do ofFields (← entries.mapM EdgeField.decode)
  | .array items => ofItems items
  | .moment => .error (.unknownField momentField EdgeEntry.fieldNames)
  | v => .error (.wrongType v recordName)

end EdgeEntry

inductive NodeField
  | id (id : String)
  | name (text : String)
  | edges (entries : List EdgeEntry)
  | otherwise (id : String)
  | skipTo (id : String)
  deriving DecidableEq, Repr

namespace NodeField

def decode : String × Value → Except ShapeFault NodeField
  | ("id", v) => (string v).map id
  | ("name", v) => (string v).map name
  | ("edges", v) => (list EdgeEntry.decode v).map edges
  | ("otherwise", v) => (string v).map otherwise
  | ("skip_to", v) => (string v).map skipTo
  | (other, _) => .error (.unknownField other NodeEntry.fieldNames)

def id? : NodeField → Option String
  | id s => some s
  | _ => none

def name? : NodeField → Option String
  | name text => some text
  | _ => none

def edges? : NodeField → Option (List EdgeEntry)
  | edges entries => some entries
  | _ => none

def otherwise? : NodeField → Option String
  | otherwise s => some s
  | _ => none

def skipTo? : NodeField → Option String
  | skipTo s => some s
  | _ => none

end NodeField

namespace NodeEntry

def recordName : String := "struct NodeDescription"

def ofFields (fields : List NodeField) : Except ShapeFault NodeEntry := do
  return {
    id := ← required "id" (fields.findSome? NodeField.id?)
    name := fields.findSome? NodeField.name?
    edges := (fields.findSome? NodeField.edges?).getD []
    otherwise := fields.findSome? NodeField.otherwise?
    skipTo := fields.findSome? NodeField.skipTo? }

/-- All fields but the edges must be there; items after the last are passed over. -/
def ofItems (items : List Value) : Except ShapeFault NodeEntry := do
  let size := NodeEntry.fieldNames.length
  return {
    id := ← itemAt recordName size items 0 string
    name := some (← itemAt recordName size items 1 string)
    edges := ← itemOr items 2 [] (list EdgeEntry.decode)
    otherwise := some (← itemAt recordName size items 3 string)
    skipTo := some (← itemAt recordName size items 4 string) }

def decode : Value → Except ShapeFault NodeEntry
  | .table entries => do ofFields (← entries.mapM NodeField.decode)
  | .array items => ofItems items
  | .moment => .error (.unknownField momentField NodeEntry.fieldNames)
  | v => .error (.wrongType v recordName)

end NodeEntry

inductive DescriptionField
  | root (id : String)
  | nodes (entries : List NodeEntry)
  deriving DecidableEq, Repr

namespace DescriptionField

def decode : String × Value → Except ShapeFault DescriptionField
  | ("root", v) => (string v).map root
  | ("nodes", v) => (list NodeEntry.decode v).map nodes
  | (name, _) => .error (.unknownField name Description.fieldNames)

def root? : DescriptionField → Option String
  | root id => some id
  | _ => none

def nodes? : DescriptionField → Option (List NodeEntry)
  | nodes entries => some entries
  | _ => none

end DescriptionField

inductive TextFault
  | malformed
  | shape (fault : ShapeFault)
  deriving Repr

def TextFault.message : TextFault → String
  | malformed => "the text is not well formed"
  | shape fault => fault.message

namespace Description

def ofFields (fields : List DescriptionField) : Except ShapeFault Description := do
  return {
    root := ← required "root" (fields.findSome? DescriptionField.root?)
    nodes := (fields.findSome? DescriptionField.nodes?).getD [] }

def decode (entries : List (String × Value)) : Except ShapeFault Description := do
  ofFields (← entries.mapM DescriptionField.decode)

def readText (text : String) : Except TextFault Description :=
  match Toml.parse text with
  | none => .error .malformed
  | some entries => (decode entries).mapError .shape

def read : Reader := fun text => (readText text).mapError fun f => ⟨f.message, f.message⟩

end Description
end StateDiagram
