import StateDiagram.Description.Text
import StateDiagram.Toml.Value

/-! What the records of a description declare: under which key each of their fields stands, whether
it can be left out, and how its value is decoded. The decoders themselves are given from outside. -/
namespace StateDiagram

open Toml (Value)

def EdgeEntry.fieldNames : List String := ["target", "match", "any_of", "bytes", "code", "peek"]

def NodeEntry.fieldNames : List String := ["id", "name", "edges", "otherwise", "skip_to"]

def Description.fieldNames : List String := ["root", "nodes"]

/-- A field of a record: its key, where the record holds it, and the decoder of its type. -/
inductive Field (ε ρ : Type) : Type 1
  /-- The field must be there. -/
  | required {α : Type} (key : String) (get : ρ → α) (item : Value → Except ε α)
  | optional {α : Type} (key : String) (get : ρ → Option α) (item : Value → Except ε α)
  | defaulted {α : Type} (key : String) (default : α) (get : ρ → α) (item : Value → Except ε α)

namespace Field

variable {ε ρ : Type}

def key : Field ε ρ → String
  | required key _ _ => key
  | optional key _ _ => key
  | defaulted key _ _ _ => key

/-- What may stand under the key: a value of the field's type, or nothing if the field can be left
out. -/
def Admits (found : Option Value) : Field ε ρ → Prop
  | required _ _ item => ∃ v ∈ found, ∃ a, item v = .ok a
  | optional _ _ item => ∀ v ∈ found, ∃ a, item v = .ok a
  | defaulted _ _ _ item => ∀ v ∈ found, ∃ a, item v = .ok a

end Field

/-- What descriptions are loaded with: a parser, which makes tables of texts, decoders for types
and records, and a reader, which brings them together. -/
structure Decoders (ε : Type) where
  parse : String → Option (List (String × Value))
  string : Value → Except ε String
  boolean : Value → Except ε Bool
  byte : Value → Except ε UInt8
  word : Value → Except ε Int32
  list : {α : Type} → (Value → Except ε α) → Value → Except ε (List α)
  edge : Value → Except ε EdgeEntry
  node : Value → Except ε NodeEntry
  /-- The description in a table. -/
  description : List (String × Value) → Except ε Description
  read : Description.Reader

namespace Decoders

variable {ε : Type} (D : Decoders ε)

def edgeFields : List (Field ε EdgeEntry) :=
  [.required "target" EdgeEntry.target D.string,
    .optional "match" EdgeEntry.literal D.string,
    .optional "any_of" EdgeEntry.anyOf D.string,
    .optional "bytes" EdgeEntry.bytes (D.list D.byte),
    .optional "code" EdgeEntry.code D.word,
    .defaulted "peek" false EdgeEntry.peek D.boolean]

def nodeFields : List (Field ε NodeEntry) :=
  [.required "id" NodeEntry.id D.string,
    .optional "name" NodeEntry.name D.string,
    .defaulted "edges" [] NodeEntry.edges (D.list D.edge),
    .optional "otherwise" NodeEntry.otherwise D.string,
    .optional "skip_to" NodeEntry.skipTo D.string]

def descriptionFields : List (Field ε Description) :=
  [.required "root" Description.root D.string,
    .defaulted "nodes" [] Description.nodes (D.list D.node)]

theorem map_key_edgeFields : D.edgeFields.map Field.key = EdgeEntry.fieldNames := rfl

theorem map_key_nodeFields : D.nodeFields.map Field.key = NodeEntry.fieldNames := rfl

theorem map_key_descriptionFields :
    D.descriptionFields.map Field.key = Description.fieldNames := rfl

end Decoders
end StateDiagram
