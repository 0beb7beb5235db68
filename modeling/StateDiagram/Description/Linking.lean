import StateDiagram.Description
import StateDiagram.Failure
import StateDiagram.Graph
import StateDiagram.Text.Utf8

/-! From a description to the graph it describes: ids become node numbers, and every entry
becomes the node of the same number. The first fault in the order of the description is
reported, after repeated ids and before an unknown root. -/
namespace StateDiagram

inductive KeyFault
  | notExactlyOne
  | peekOnCode
  | emptyAnyOf
  | emptyMatch
  deriving DecidableEq, Repr

def KeyFault.message : KeyFault → String
  | notExactlyOne => "edge needs exactly one of `match`, `any_of`, `bytes`, `code`"
  | peekOnCode => "`peek` does not apply to `code` edges, they never consume input"
  | emptyAnyOf => "`any_of` must not be empty"
  | emptyMatch => "match key must not be empty"

namespace EdgeEntry

def formCount (e : EdgeEntry) : Nat :=
  [e.literal.isSome, e.anyOf.isSome, e.bytes.isSome, e.code.isSome].count true

/-- The keys of an entry, and whether its edges leave the input where it is. Codes always do. -/
def keys (e : EdgeEntry) : Except KeyFault (List Key × Bool) :=
  if e.formCount ≠ 1 then .error .notExactlyOne
  else
    match e.code, e.anyOf with
    | some c, _ => if e.peek then .error .peekOnCode else .ok ([.code c], true)
    | none, some text =>
      if text = "" then .error .emptyAnyOf
      else .ok ((utf8 text).map fun b => .bytes [b], e.peek)
    | none, none =>
      let bytes := (e.literal.map utf8).getD (e.bytes.getD [])
      if bytes = [] then .error .emptyMatch else .ok ([.bytes bytes], e.peek)

def edges {ν : Type} (e : EdgeEntry) (target : ν) : Except KeyFault (List (Edge ν)) :=
  e.keys.map fun (keys, stays) => keys.map fun k => ⟨target, some k, stays⟩

end EdgeEntry

inductive LinkFault
  /-- The id of the entry at a position is the id of an earlier one. -/
  | repeatedId (id : String) (position : Nat)
  | unknownTarget (node : String) (edge : Nat) (target : String)
  | badKey (node : String) (edge : Nat) (fault : KeyFault)
  | twoFallbacks (node : String)
  | unknownFallback (id : String)
  | unknownRoot (id : String)
  deriving DecidableEq, Repr

namespace LinkFault

def operation : String := "description::build"

def failure : LinkFault → Failure
  | repeatedId id _ =>
    ((Failure.configInvalid "duplicate node id").during operation).noting "node" id
  | unknownTarget node edge target =>
    ((((Failure.nodeNotFound target).during operation).during operation).noting "node" node).noting
      "edge" (toString edge)
  | badKey node edge fault =>
    (((Failure.configInvalid fault.message).during operation).noting "node" node).noting
      "edge" (toString edge)
  | twoFallbacks node =>
    ((Failure.configInvalid "node has both `otherwise` and `skip_to`").during operation).noting
      "node" node
  | unknownFallback id => (Failure.nodeNotFound id).during operation
  | unknownRoot id => (Failure.nodeNotFound id).during operation

/-- How many nodes of `total` entries are made before the fault is noticed. -/
def nodesMade (total : Nat) : LinkFault → Nat
  | repeatedId _ position => position + 1
  | _ => total

end LinkFault

variable {ν : Type}

/-- The node that an entry describes, where `find?` gives the node of an id. -/
def NodeEntry.link (find? : String → Option ν) (e : NodeEntry) : Except LinkFault (Node ν) := do
  let edges ← e.edges.zipIdx.mapM fun (entry, i) =>
    match find? entry.target with
    | none => .error (.unknownTarget e.id i entry.target)
    | some target => (entry.edges target).mapError (.badKey e.id i)
  let fallback ← match e.otherwise, e.skipTo with
    | some _, some _ => .error (.twoFallbacks e.id)
    | some id, none => linkFallback id true
    | none, some id => linkFallback id false
    | none, none => .ok none
  return ⟨e.shownName, edges.flatten, fallback⟩
where
  linkFallback (id : String) (stays : Bool) : Except LinkFault (Option (Fallback ν)) :=
    match find? id with
    | none => .error (.unknownFallback id)
    | some target => .ok (some ⟨target, stays⟩)

theorem length_of_mapM_eq_ok {α β ε : Type} (f : α → Except ε β) {xs : List α} {ys : List β}
    (h : xs.mapM f = .ok ys) : ys.length = xs.length := by
  induction xs generalizing ys with
  | nil =>
    rw [List.mapM_nil] at h
    cases h
    rfl
  | cons x xs ih =>
    rw [List.mapM_cons] at h
    cases hx : f x with
    | error e => rw [hx] at h; cases h
    | ok y =>
      cases hs : xs.mapM f with
      | error e => rw [hx, hs] at h; cases h
      | ok zs =>
        rw [hx, hs] at h
        cases h
        simp [ih hs]

/-- The first id that repeats one before it or one of `seen`, with its position. -/
def firstRepeated? (seen : List String) : List String → Option (String × Nat)
  | [] => none
  | id :: ids => if id ∈ seen then some (id, seen.length) else firstRepeated? (id :: seen) ids

theorem firstRepeated?_eq_none_iff {seen ids : List String} :
    firstRepeated? seen ids = none ↔ ids.Nodup ∧ ∀ id ∈ ids, id ∉ seen := by
  induction ids generalizing seen with
  | nil => simp [firstRepeated?]
  | cons id ids ih =>
    by_cases h : id ∈ seen
    · simp [firstRepeated?, h]
    · simp only [firstRepeated?, h, if_false, ih, List.nodup_cons, List.mem_cons, not_or,
        forall_eq_or_imp, not_false_eq_true, true_and]
      constructor
      · rintro ⟨hn, ha⟩
        exact ⟨⟨fun hm => (ha id hm).1 rfl, hn⟩, fun x hx => (ha x hx).2⟩
      · rintro ⟨⟨hi, hn⟩, ha⟩
        exact ⟨hn, fun x hx => ⟨fun e => hi (e ▸ hx), ha x hx⟩⟩

namespace Description

def find? (d : Description) (id : String) : Option (Fin d.nodes.length) :=
  d.nodes.findFinIdx? (·.id == id)

/-- The graph that a description stands for, and its root. Another root than the described one
can be asked for. -/
def link (d : Description) (root : Option String) :
    Except LinkFault (Graph d.nodes.length × Fin d.nodes.length) :=
  match firstRepeated? [] (d.nodes.map (·.id)) with
  | some (id, position) => .error (.repeatedId id position)
  | none =>
    match h : d.nodes.mapM (·.link d.find?) with
    | .error fault => .error fault
    | .ok nodes =>
      let rootId := root.getD d.root
      match d.find? rootId with
      | none => .error (.unknownRoot rootId)
      | some v =>
        .ok (⟨⟨nodes.toArray, by simpa using length_of_mapM_eq_ok _ h⟩⟩, v)

end Description
end StateDiagram
