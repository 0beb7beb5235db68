import Mathlib.Data.List.Induction
import StateDiagram.Failure

/-! The history of a failure. Operations and notes share one list, and an operation moves to it when
another one takes its place, so what the list holds depends on how the calls are interleaved. It
tells all of them: nothing that was recorded is changed or lost, and the operations named are those
recorded as called and the one that is named last (`Failure.history_of_run`). -/
namespace StateDiagram

inductive FailureOrigin
  | plain (kind : ErrorKind) (message : String)
  | invalidArgument (message : String)
  | configInvalid (message : String)
  | graphBuildFailed (message : String)
  | invariantViolation (message : String)
  | nodeNotFound (node : String)
  | file (error : FileError)
  deriving DecidableEq, Repr

namespace FailureOrigin

def failure : FailureOrigin → Failure
  | plain kind message => .new kind message
  | invalidArgument message => .invalidArgument message
  | configInvalid message => .configInvalid message
  | graphBuildFailed message => .graphBuildFailed message
  | invariantViolation message => .invariantViolation message
  | nodeNotFound node => .nodeNotFound node
  | file error => .ofFile error

def notes : FailureOrigin → List (String × String)
  | nodeNotFound node => [("node", node)]
  | _ => []

def operation : FailureOrigin → String
  | file _ => "io"
  | _ => ""

theorem context_failure (o : FailureOrigin) : o.failure.context = o.notes := by
  cases o <;> rfl

theorem operation_failure (o : FailureOrigin) : o.failure.operation = o.operation := by
  cases o <;> rfl

end FailureOrigin

inductive FailureCall
  | during (operation : String)
  | noting (key value : String)
  deriving DecidableEq, Repr

/-- An entry of the context, by what it is recorded for. -/
inductive FailureEntry
  | noted (key value : String)
  | called (operation : String)
  deriving DecidableEq, Repr

namespace FailureEntry

def pair : FailureEntry → String × String
  | noted key value => (key, value)
  | called operation => ("called", operation)

def noted? : FailureEntry → Option (String × String)
  | noted key value => some (key, value)
  | called _ => none

def called? : FailureEntry → Option String
  | noted _ _ => none
  | called operation => some operation

end FailureEntry

namespace FailureCall

def operation? : FailureCall → Option String
  | during operation => some operation
  | noting _ _ => none

def note? : FailureCall → Option (String × String)
  | during _ => none
  | noting key value => some (key, value)

def operations (calls : List FailureCall) : List String := calls.filterMap operation?

/-- The operation in force after some calls, where `made` was in force before them. -/
def current (made : String) (calls : List FailureCall) : String :=
  (operations calls).getLastD made

/-- What a call records: its note, or the operation in force if it names another one. -/
def entries (inForce : String) : FailureCall → List FailureEntry
  | during _ => if inForce = "" then [] else [.called inForce]
  | noting key value => [.noted key value]

/-- What calls record one after the other, each at the moment it is made. -/
def history (made : String) (calls : List FailureCall) : List FailureEntry :=
  (calls.mapIdx fun i call => call.entries (current made (calls.take i))).flatten

theorem operations_concat (calls : List FailureCall) (call : FailureCall) :
    operations (calls ++ [call]) = operations calls ++ call.operation?.toList := by
  cases call <;> simp [operations, operation?]

theorem history_concat (made : String) (calls : List FailureCall) (call : FailureCall) :
    history made (calls ++ [call]) = history made calls ++ call.entries (current made calls) := by
  have hbefore : (calls.mapIdx fun i c => c.entries (current made ((calls ++ [call]).take i))) =
      calls.mapIdx fun i c => c.entries (current made (calls.take i)) := by
    rw [List.mapIdx_eq_mapIdx_iff]
    intro i hi
    rw [List.take_append_of_le_length (Nat.le_of_lt hi)]
  simp [history, List.mapIdx_concat, hbefore]

theorem current_concat_during (made : String) (calls : List FailureCall) (operation : String) :
    current made (calls ++ [during operation]) = operation := by
  simp [current, operations_concat, operation?]

theorem current_concat_noting (made : String) (calls : List FailureCall) (key value : String) :
    current made (calls ++ [noting key value]) = current made calls := by
  simp [current, operations_concat, operation?]

theorem filterMap_noted?_history (made : String) (calls : List FailureCall) :
    (history made calls).filterMap FailureEntry.noted? = calls.filterMap note? := by
  induction calls using List.reverseRecOn with
  | nil => rfl
  | append_singleton calls call ih =>
    rw [history_concat, List.filterMap_append, ih, List.filterMap_append]
    congr 1
    cases call with
    | noting key value => rfl
    | during operation =>
      by_cases h : current made calls = ""
      · simp [entries, h, note?, List.filterMap_cons]
      · simp [entries, h, note?, FailureEntry.noted?, List.filterMap_cons]

/-- The operations recorded as called and the one in force are all that were named. -/
theorem filterMap_called?_history (made : String) (calls : List FailureCall) :
    (history made calls).filterMap FailureEntry.called? ++ [current made calls].filter (· ≠ "") =
      (made :: operations calls).filter (· ≠ "") := by
  induction calls using List.reverseRecOn with
  | nil => rfl
  | append_singleton calls call ih =>
    rw [history_concat, List.filterMap_append, operations_concat, ← List.cons_append,
      List.filter_append, ← ih]
    cases call with
    | noting key value =>
      have hentries : ((noting key value).entries (current made calls)).filterMap
          FailureEntry.called? = [] := rfl
      simp [current_concat_noting, hentries, operation?]
    | during operation =>
      have hentries : ((during operation).entries (current made calls)).filterMap
          FailureEntry.called? = [current made calls].filter (· ≠ "") := by
        by_cases h : current made calls = ""
        · simp [entries, h]
        · simp [entries, h, FailureEntry.called?]
      simp [current_concat_during, hentries, operation?]

end FailureCall

namespace Failure

open FailureCall

def after (f : Failure) : FailureCall → Failure
  | .during operation => f.during operation
  | .noting key value => f.noting key value

def run (f : Failure) (calls : List FailureCall) : Failure := calls.foldl after f

theorem run_append (f : Failure) (calls more : List FailureCall) :
    f.run (calls ++ more) = (f.run calls).run more := by
  simp [run]

theorem run_concat (f : Failure) (calls : List FailureCall) (call : FailureCall) :
    f.run (calls ++ [call]) = (f.run calls).after call := by
  simp [run]

theorem context_after (f : Failure) (call : FailureCall) :
    (f.after call).context =
      f.context ++ (call.entries f.operation).map FailureEntry.pair := by
  cases call with
  | noting key value => rfl
  | during operation =>
    by_cases h : f.operation = "" <;> simp [after, during, entries, h, calledKey, FailureEntry.pair]

theorem operation_run (f : Failure) (calls : List FailureCall) :
    (f.run calls).operation = current f.operation calls := by
  induction calls using List.reverseRecOn with
  | nil => rfl
  | append_singleton calls call ih =>
    rw [run_concat]
    cases call with
    | during operation => simp [after, during, current_concat_during]
    | noting key value => simp [after, noting, current_concat_noting, ih]

theorem context_run (f : Failure) (calls : List FailureCall) :
    (f.run calls).context = f.context ++ (history f.operation calls).map FailureEntry.pair := by
  induction calls using List.reverseRecOn with
  | nil => simp [run, history]
  | append_singleton calls call ih =>
    rw [run_concat, context_after, operation_run, history_concat, List.map_append,
      ← List.append_assoc, ih]

/-- Calls only add to the context. -/
theorem context_run_isPrefix (f : Failure) (calls : List FailureCall) :
    f.context <+: (f.run calls).context := by
  rw [context_run]
  exact List.prefix_append _ _

theorem nature_run (f : Failure) (calls : List FailureCall) :
    (f.run calls).kind = f.kind ∧ (f.run calls).message = f.message ∧
      (f.run calls).causes = f.causes := by
  induction calls using List.reverseRecOn with
  | nil => exact ⟨rfl, rfl, rfl⟩
  | append_singleton calls call ih =>
    rw [run_concat]
    cases call with
    | during operation => exact ih
    | noting key value => exact ih

theorem noted?_eq_some_iff (f : Failure) (key value : String) :
    f.noted? key = some value ↔
      ∃ before later, f.context = before ++ (key, value) :: later ∧ key ∉ before.map (·.1) := by
  rw [noted?, List.lookup_eq_some_iff]
  refine exists_congr fun before => exists_congr fun later => and_congr_right fun _ => ?_
  simp only [List.mem_map, not_exists, not_and, bne_iff_ne, ne_eq]
  exact forall₂_congr fun p _ => not_congr eq_comm

/-- A value that is found stays the one that is found. -/
theorem noted?_run {f : Failure} {key value : String} (h : f.noted? key = some value)
    (calls : List FailureCall) : (f.run calls).noted? key = some value := by
  rw [noted?] at h ⊢
  rw [context_run, List.lookup_append, h]
  rfl

end Failure

/-- What a failure tells of how it was made and of what it was told since. -/
structure FailureOrigin.Chronicles (o : FailureOrigin) (calls : List FailureCall) (f : Failure) :
    Prop where
  kind_eq : f.kind = o.failure.kind
  message_eq : f.message = o.failure.message
  causes_eq : f.causes = o.failure.causes
  operation_eq : f.operation = FailureCall.current o.operation calls
  context_eq : f.context =
    o.notes ++ (FailureCall.history o.operation calls).map FailureEntry.pair
  /-- The notes that were asked for are all there, in their order. -/
  noted_eq : (FailureCall.history o.operation calls).filterMap FailureEntry.noted? =
    calls.filterMap FailureCall.note?
  /-- The operations that were named are all there, in their order, the last in its own place. -/
  called_eq : (FailureCall.history o.operation calls).filterMap FailureEntry.called? ++
    [f.operation].filter (· ≠ "") = (o.operation :: FailureCall.operations calls).filter (· ≠ "")

/-- However a failure is made and whatever it is told, it keeps its kind, message and causes, and
its context grows by exactly what each call records. No operation is lost, and a value that was
noted first under a key is found from then on. -/
theorem Failure.history_of_run (o : FailureOrigin) (calls : List FailureCall) :
    o.Chronicles calls (o.failure.run calls) ∧
      (∀ more, (o.failure.run calls).context <+: (o.failure.run (calls ++ more)).context) ∧
      ∀ key value,
        ((o.failure.run calls).noted? key = some value ↔ ∃ before later,
          (o.failure.run calls).context = before ++ (key, value) :: later ∧
            key ∉ before.map (·.1)) ∧
        ((o.failure.run calls).noted? key = some value →
          ∀ more, (o.failure.run (calls ++ more)).noted? key = some value) := by
  obtain ⟨hkind, hmessage, hcauses⟩ := o.failure.nature_run calls
  have hoperation : (o.failure.run calls).operation = FailureCall.current o.operation calls := by
    rw [operation_run, o.operation_failure]
  refine ⟨⟨hkind, hmessage, hcauses, hoperation, ?_, FailureCall.filterMap_noted?_history _ calls,
    ?_⟩, fun more => ?_, fun key value => ⟨noted?_eq_some_iff _ key value, fun h more => ?_⟩⟩
  · rw [context_run, o.context_failure, o.operation_failure]
  · rw [hoperation]
    exact FailureCall.filterMap_called?_history o.operation calls
  · rw [run_append]
    exact context_run_isPrefix _ more
  · rw [run_append]
    exact noted?_run h more

end StateDiagram
