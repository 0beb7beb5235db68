import StateDiagram.Description.Linking
import StateDiagram.Description.Text
import StateDiagram.Drawing
import StateDiagram.File.Tree

/-! From a description file to a drawing. -/
namespace StateDiagram

structure Request (π : Type) where
  /-- The path of the description. -/
  input : π
  /-- The id of the node to start from, instead of the described one. -/
  root : Option String
  layout : Layout
  deriving DecidableEq, Repr

/-- Why a request could not be carried out. Paths are given as they are shown. -/
inductive RequestFault
  | unreadable (path : String) (error : FileError)
  | undescribed (path : String) (failure : Failure)
  | unlinked (fault : LinkFault)
  | undrawn (edge : KeylessEdge)
  | unwritten (path : String) (error : FileError)
  deriving Repr

namespace RequestFault

def failure : RequestFault → Failure
  | unreadable path error =>
    ((Failure.ofFile error).during "description::load").noting "path" path
  | undescribed path failure => failure.noting "path" path
  | unlinked fault => fault.failure
  | undrawn edge => edge.drawingFailure
  | unwritten path error =>
    ((Failure.ofFile error).during "output::write_output").noting "path" path

end RequestFault

namespace Request

variable {π : Type} [ToString π]

/-- The document for a request, given what reading its input gave. -/
def document (read : Description.Reader) (r : Request π)
    (input : Except FileError (List UInt8)) : Except RequestFault Document := do
  let bytes ← input.mapError (.unreadable (toString r.input))
  let text ← match ofUtf8? bytes with
    | some text => .ok text
    | none => .error (.unreadable (toString r.input) .notText)
  let description ← (Description.ofText read text).mapError (.undescribed (toString r.input))
  let (graph, root) ← (description.link r.root).mapError .unlinked
  (graph.draw r.layout root).mapError .undrawn

theorem document_of_ok {read : Description.Reader} {r : Request π} {text : String}
    {d : Description} {g : Graph d.nodes.length} {root : Fin d.nodes.length} {document : Document}
    (hread : Description.ofText read text = .ok d) (hlink : d.link r.root = .ok (g, root))
    (hdraw : g.draw r.layout root = .ok document) :
    r.document read (.ok (utf8 text)) = .ok document := by
  have hok {ε α : Type} (report : ε → RequestFault) (a : α) :
      (Except.ok a).mapError report = .ok a := rfl
  simp only [Request.document, hok, bind, Except.bind, ofUtf8?_utf8, hread, hlink, hdraw]

variable {m : Type → Type} [Monad m]

/-- Carry out a request. No file is changed. -/
def run (read : Description.Reader) (files : FileAccess π m) (r : Request π) :
    m (Except RequestFault String) := do
  return (r.document read (← files.read r.input)).map Document.render

theorem run_eq {σ : Type} (read : Description.Reader) (files : FileAccess π (StateM σ))
    (r : Request π) (s : σ) : r.run read files s =
      ((r.document read (files.read r.input s).1).map Document.render,
        (files.read r.input s).2) :=
  rfl

def save (files : FileAccess π m) (path text : String) : m (Except RequestFault Unit) := do
  return (← files.write path text).mapError (.unwritten path)

end Request
end StateDiagram
