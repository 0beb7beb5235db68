import StateDiagram.Binary64

/-! Configuration values. -/
namespace StateDiagram
namespace Toml

inductive Value
  | string (text : String)
  | integer (number : Int)
  | float (number : Binary64)
  | boolean (value : Bool)
  /-- A date, a time, or both. Which one it is makes no difference to any reader of values. -/
  | moment
  | array (items : List Value)
  /-- Keys in the order in which they appear; no key appears twice. -/
  | table (entries : List (String × Value))
  deriving Repr

end Toml
end StateDiagram
