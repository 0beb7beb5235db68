import StateDiagram.Description
import StateDiagram.Failure

/-! Descriptions as texts. How a text is read is left to a reader, and this is what is made of its
answer. -/
namespace StateDiagram

structure ReadFault where
  /-- What is wrong. -/
  message : String
  /-- The same with the place in the text, as far as the reader tells. -/
  details : String
  deriving DecidableEq, Repr

def ReadFault.failure (f : ReadFault) : Failure :=
  { (Failure.new .deserializationFailed f.message).during "description::from_toml" with
    causes := [.unreadable f.details] }

namespace Description

abbrev Reader := String → Except ReadFault Description

def ofText (read : Reader) (text : String) : Except Failure Description :=
  (read text).mapError ReadFault.failure

end Description
end StateDiagram
