import Mathlib
import StateDiagram.Arguments
import StateDiagram.Proofs.Storage

/-! A run of the program step by step, with any tools to read arguments and descriptions with. What
`execute` returns at its end is done here on the way: files and streams change as the program goes
on, and whatever was printed or written before a failure would stay. It comes to what `execute` says
(`Process.ending_program`), whatever is logged. All that can fail comes before the first thing that
others see, so a run that fails has printed nothing and changed no file, and one that succeeds has
done all it was asked for (`Storage.allOrNothing_program`). The streams are no files: no path leads
to them. -/
namespace StateDiagram

variable {α π σ β γ : Type}

/-- The files, and all that has come out of the two streams. -/
structure World (σ : Type) where
  files : σ
  stdout : String
  stderr : String

inductive Event (π : Type)
  | begun
  /-- A description was read, linked and drawn, as far as that went. -/
  | attempted (request : Request π) (input : Except FileError (List UInt8))
  | failed (fault : RequestFault)
  | written (path text : String)
  | complete

structure Journal (π : Type) where
  /-- The filter that the environment asks for. Nothing is logged without one. -/
  filter : Option String
  /-- The lines that an event adds to the log under a filter. -/
  lines : String → Event π → String

namespace Journal

def entry (journal : Journal π) (event : Event π) : String :=
  match journal.filter with
  | none => ""
  | some filter => journal.lines filter event

def log (journal : Journal π) (events : List (Event π)) : String :=
  String.join (events.map journal.entry)

variable (journal : Journal π)

@[simp] theorem log_nil : journal.log [] = "" := String.join_nil

@[simp] theorem log_cons (event : Event π) (events : List (Event π)) :
    journal.log (event :: events) = journal.entry event ++ journal.log events :=
  String.join_cons

@[simp] theorem log_append (events events' : List (Event π)) :
    journal.log (events ++ events') = journal.log events ++ journal.log events' := by
  induction events with
  | nil => simp
  | cons event events ih => simp [ih, String.append_assoc]

/-- A world in which nothing was printed, and in which some events were logged. -/
def silent (events : List (Event π)) (s : σ) : World σ := ⟨s, "", journal.log events⟩

theorem silent_nil (s : σ) : journal.silent [] s = ⟨s, "", ""⟩ := by simp [silent]

end Journal

/-- A program that may end early, with an exit code. -/
abbrev Process (σ : Type) := EStateM UInt32 (World σ)

/-- The exit code of a run, and what the run left. -/
structure Ending (σ : Type) where
  code : UInt32
  world : World σ

namespace Process

def ending (p : Process σ Unit) (s : σ) : Ending σ :=
  match p.run ⟨s, "", ""⟩ with
  | .ok () w => ⟨0, w⟩
  | .error code w => ⟨code, w⟩

def print (text : String) : Process σ Unit :=
  modify fun w => { w with stdout := w.stdout ++ text }

def complain (text : String) : Process σ Unit :=
  modify fun w => { w with stderr := w.stderr ++ text }

def ask (action : StateM σ β) : Process σ β :=
  modifyGet fun w => ((action w.files).1, { w with files := (action w.files).2 })

/-- Log an event. The log goes where complaints go. -/
def note (journal : Journal π) (event : Event π) : Process σ Unit :=
  complain (journal.entry event)

def parse (tools : Tools α π) (arguments : List α) : Process σ (Command π) := do
  match tools.command arguments with
  | .error (.misuse text) =>
    complain text
    throw 2
  | .error (.information text) =>
    print text
    throw 0
  | .ok command => return command

def abandon (fault : RequestFault) : Process σ β := do
  complain (Outcome.failed fault).stderr
  throw 1

section Program

variable [ToString π] (tools : Tools α π) (files : FileAccess π (StateM σ)) (journal : Journal π)

def draw (request : Request π) : Process σ String := do
  let input ← ask (files.read request.input)
  note journal (.attempted request input)
  match (request.document tools.description input).map Document.render with
  | .error fault =>
    note journal (.failed fault)
    abandon fault
  | .ok text => return text

def deliver (output : Option String) (text : String) : Process σ Unit := do
  match output with
  | none => print text
  | some path =>
    match ← ask (Request.save files path text) with
    | .error fault => abandon fault
    | .ok () => note journal (.written path text)

def carryOut (command : Command π) : Process σ Unit := do
  note journal .begun
  let text ← draw tools files journal command.request
  deliver files journal command.output text
  note journal .complete

def program (arguments : List α) : Process σ Unit := do
  carryOut tools files journal (← parse tools arguments)

end Program

variable {tools : Tools α π} {files : FileAccess π (StateM σ)} {journal : Journal π}
  {w w' : World σ}

theorem run_bind_of_ok {p : Process σ β} {b : β} (h : p.run w = .ok b w')
    (f : β → Process σ γ) : (p >>= f).run w = (f b).run w' := by
  simp only [EStateM.run] at h ⊢
  simp only [bind, EStateM.bind, h]

theorem run_bind_of_error {p : Process σ β} {code : UInt32} (h : p.run w = .error code w')
    (f : β → Process σ γ) : (p >>= f).run w = .error code w' := by
  simp only [EStateM.run] at h ⊢
  simp only [bind, EStateM.bind, h]

theorem run_ask (action : StateM σ β) (w : World σ) : (ask action).run w =
    .ok (action w.files).1 { w with files := (action w.files).2 } :=
  rfl

theorem run_note (journal : Journal π) (event : Event π) (w : World σ) :
    (note journal event).run w =
      .ok () { w with stderr := w.stderr ++ journal.entry event } :=
  rfl

theorem run_abandon (fault : RequestFault) (w : World σ) : (abandon fault : Process σ β).run w =
    .error 1 { w with stderr := w.stderr ++ (Outcome.failed fault).stderr } :=
  rfl

theorem run_note_silent (journal : Journal π) (events : List (Event π)) (event : Event π)
    (s : σ) : (note journal event).run (journal.silent events s) =
      .ok () (journal.silent (events ++ [event]) s) := by
  simp [run_note, Journal.silent]

section Stages

variable (journal) (events : List (Event π)) {s s' : σ} {path text : String}
  {fault : RequestFault}

theorem run_deliver_none (text : String) (w : World σ) :
    (deliver files journal none text).run w = .ok () { w with stdout := w.stdout ++ text } :=
  rfl

theorem run_deliver_of_error (h : Request.save files path text s = (.error fault, s')) :
    (deliver files journal (some path) text).run (journal.silent events s) =
      .error 1 ⟨s', "", journal.log events ++ (Outcome.failed fault).stderr⟩ := by
  rw [deliver, run_bind_of_ok (run_ask ..)]
  simp only [Journal.silent]
  rw [h, run_abandon]

theorem run_deliver_of_ok (h : Request.save files path text s = (.ok (), s')) :
    (deliver files journal (some path) text).run (journal.silent events s) =
      .ok () (journal.silent (events ++ [.written path text]) s') := by
  rw [deliver, run_bind_of_ok (run_ask ..)]
  simp only [Journal.silent]
  rw [h, run_note]
  simp

variable [ToString π] {request : Request π}

theorem run_draw_of_error (h : request.run tools.description files s = (.error fault, s')) :
    ∃ events', (draw tools files journal request).run (journal.silent events s) =
      .error 1 ⟨s', "", journal.log events' ++ (Outcome.failed fault).stderr⟩ := by
  obtain ⟨hdoc, rfl⟩ := Prod.mk.inj h
  refine ⟨events ++ [.attempted request (files.read request.input s).1, .failed fault], ?_⟩
  rw [draw, run_bind_of_ok (run_ask ..), run_bind_of_ok (run_note ..)]
  simp only [Journal.silent]
  rw [hdoc]
  dsimp only
  rw [run_bind_of_ok (run_note ..), run_abandon]
  simp [String.append_assoc]

theorem run_draw_of_ok (h : request.run tools.description files s = (.ok text, s')) :
    ∃ events', (draw tools files journal request).run (journal.silent events s) =
      .ok text (journal.silent events' s') := by
  obtain ⟨hdoc, rfl⟩ := Prod.mk.inj h
  refine ⟨events ++ [.attempted request (files.read request.input s).1], ?_⟩
  rw [draw, run_bind_of_ok (run_ask ..), run_bind_of_ok (run_note ..)]
  simp only [Journal.silent]
  rw [hdoc]
  simp

theorem run_program {arguments : List α} {command : Command π}
    (h : tools.command arguments = .ok command) (s : σ) :
    (program tools files journal arguments).run ⟨s, "", ""⟩ =
      (draw tools files journal command.request >>= fun text => do
        deliver files journal command.output text
        note journal .complete).run (journal.silent [.begun] s) := by
  rw [program, parse, h, ← journal.silent_nil]
  change (carryOut tools files journal command).run (journal.silent [] s) = _
  exact run_bind_of_ok (run_note_silent journal [] .begun s) _

end Stages

theorem ending_of_ok {p : Process σ Unit} {s : σ} (h : p.run ⟨s, "", ""⟩ = .ok () w) :
    p.ending s = ⟨0, w⟩ := by
  rw [ending, h]

theorem ending_of_error {p : Process σ Unit} {s : σ} {code : UInt32}
    (h : p.run ⟨s, "", ""⟩ = .error code w) : p.ending s = ⟨code, w⟩ := by
  rw [ending, h]

end Process

/-- The ways in which a run can go: what comes of it, and the files that it leaves. -/
inductive Course [ToString π] (tools : Tools α π) (files : FileAccess π (StateM σ))
    (arguments : List α) (s : σ) : Outcome → σ → Prop
  | noticed (notice : Notice) (harg : tools.command arguments = .error notice) :
      Course tools files arguments s (.noticed notice) s
  | undrawn (command : Command π) (fault : RequestFault) (s' : σ)
      (harg : tools.command arguments = .ok command)
      (hrun : command.request.run tools.description files s = (.error fault, s')) :
      Course tools files arguments s (.failed fault) s'
  | shown (command : Command π) (text : String) (s' : σ)
      (harg : tools.command arguments = .ok command) (hout : command.output = none)
      (hrun : command.request.run tools.description files s = (.ok text, s')) :
      Course tools files arguments s (.shown text) s'
  | unsaved (command : Command π) (path text : String) (fault : RequestFault) (s' s'' : σ)
      (harg : tools.command arguments = .ok command) (hout : command.output = some path)
      (hrun : command.request.run tools.description files s = (.ok text, s'))
      (hsave : Request.save files path text s' = (.error fault, s'')) :
      Course tools files arguments s (.failed fault) s''
  | saved (command : Command π) (path text : String) (s' s'' : σ)
      (harg : tools.command arguments = .ok command) (hout : command.output = some path)
      (hrun : command.request.run tools.description files s = (.ok text, s'))
      (hsave : Request.save files path text s' = (.ok (), s'')) :
      Course tools files arguments s .saved s''

namespace Course

variable [ToString π] {tools : Tools α π} {files : FileAccess π (StateM σ)} {arguments : List α}
  {s s' : σ} {outcome : Outcome}

theorem exists_course (tools : Tools α π) (files : FileAccess π (StateM σ)) (arguments : List α)
    (s : σ) : ∃ outcome s', Course tools files arguments s outcome s' := by
  cases harg : tools.command arguments with
  | error notice => exact ⟨_, _, .noticed notice harg⟩
  | ok command =>
    obtain ⟨fault | text, s', hrun⟩ :
        ∃ r s', command.request.run tools.description files s = (r, s') := ⟨_, _, rfl⟩
    · exact ⟨_, _, .undrawn command fault s' harg hrun⟩
    cases hout : command.output with
    | none => exact ⟨_, _, .shown command text s' harg hout hrun⟩
    | some path =>
      obtain ⟨fault | _, s'', hsave⟩ : ∃ r s'', Request.save files path text s' = (r, s'') :=
        ⟨_, _, rfl⟩
      · exact ⟨_, _, .unsaved command path text fault s' s'' harg hout hrun hsave⟩
      · exact ⟨_, _, .saved command path text s' s'' harg hout hrun hsave⟩

theorem bind_of_eq {m : StateM σ β} {b : β} (h : m s = (b, s')) (f : β → StateM σ γ) :
    (m >>= f) s = f b s' := by
  change f (m s).1 (m s).2 = f b s'
  rw [h]

theorem execute_eq (h : Course tools files arguments s outcome s') :
    execute tools files arguments s = (outcome, s') := by
  cases h with
  | noticed notice harg => simp only [execute, harg]; rfl
  | undrawn command fault s' harg hrun =>
    simp only [execute, harg]
    rw [bind_of_eq hrun]
    rfl
  | shown command text s' harg hout hrun =>
    simp only [execute, harg, hout]
    rw [bind_of_eq hrun]
    rfl
  | unsaved command path text fault s' s'' harg hout hrun hsave =>
    simp only [execute, harg, hout]
    rw [bind_of_eq hrun]
    dsimp only
    rw [bind_of_eq hsave]
    rfl
  | saved command path text s' s'' harg hout hrun hsave =>
    simp only [execute, harg, hout]
    rw [bind_of_eq hrun]
    dsimp only
    rw [bind_of_eq hsave]
    rfl

open Process in
theorem ending_eq (journal : Journal π) (h : Course tools files arguments s outcome s') :
    ∃ events, (program tools files journal arguments).ending s =
      ⟨outcome.exitCode, s', outcome.stdout, journal.log events ++ outcome.stderr⟩ := by
  cases h with
  | noticed notice harg =>
    refine ⟨[], ?_⟩
    cases notice <;>
    · refine ending_of_error ?_
      rw [Journal.log_nil, program, parse, harg]
      rfl
  | undrawn command fault s' harg hrun =>
    obtain ⟨events, hdraw⟩ := run_draw_of_error journal [.begun] hrun
    refine ⟨events, ending_of_error ?_⟩
    rw [run_program journal harg, run_bind_of_error hdraw]
    rfl
  | shown command text s' harg hout hrun =>
    obtain ⟨events, hdraw⟩ := run_draw_of_ok journal [.begun] hrun
    refine ⟨events ++ [.complete], ending_of_ok ?_⟩
    rw [run_program journal harg, run_bind_of_ok hdraw, hout, run_bind_of_ok (run_deliver_none ..),
      run_note]
    simp [Journal.silent, Outcome.stdout, Outcome.stderr]
  | unsaved command path text fault s' s'' harg hout hrun hsave =>
    obtain ⟨events, hdraw⟩ := run_draw_of_ok journal [.begun] hrun
    refine ⟨events, ending_of_error ?_⟩
    rw [run_program journal harg, run_bind_of_ok hdraw, hout,
      run_bind_of_error (run_deliver_of_error journal events hsave)]
    rfl
  | saved command path text s' s'' harg hout hrun hsave =>
    obtain ⟨events, hdraw⟩ := run_draw_of_ok journal [.begun] hrun
    refine ⟨events ++ [.written path text, .complete], ending_of_ok ?_⟩
    rw [run_program journal harg, run_bind_of_ok hdraw, hout,
      run_bind_of_ok (run_deliver_of_ok journal events hsave), run_note_silent]
    simp [Journal.silent, Outcome.stdout, Outcome.stderr]

end Course

/-- What happens step by step comes to what `execute` says. All that is logged comes before the
complaint, if there is one. -/
theorem Process.ending_program [ToString π] (tools : Tools α π)
    (files : FileAccess π (StateM σ)) (journal : Journal π) (arguments : List α) (s : σ) :
    ∃ events, (program tools files journal arguments).ending s =
      ⟨(execute tools files arguments s).1.exitCode, (execute tools files arguments s).2,
        (execute tools files arguments s).1.stdout,
        journal.log events ++ (execute tools files arguments s).1.stderr⟩ := by
  obtain ⟨outcome, s', h⟩ := Course.exists_course tools files arguments s
  rw [h.execute_eq]
  exact h.ending_eq journal

namespace Storage

variable (S : Storage π σ) {path text : String} {s s' : σ} {fault : RequestFault}

theorem save_error (h : Request.save S.access path text s = (.error fault, s')) : s' = s := by
  obtain ⟨hfault, rfl⟩ := Prod.mk.inj h
  cases hw : (S.access.write path text s).1 with
  | error e => exact S.write_error path text s e hw
  | ok _ => rw [hw] at hfault; cases hfault

theorem save_ok (h : Request.save S.access path text s = (.ok (), s')) : S.Puts path text s s' := by
  obtain ⟨hfault, rfl⟩ := Prod.mk.inj h
  cases hw : (S.access.write path text s).1 with
  | error e => rw [hw] at hfault; cases hfault
  | ok _ => exact S.write_ok path text s hw

/-- Where a document is after it was delivered: in the file that was named, with nothing printed,
or else printed, with the files as they were. -/
def Delivered (output : Option String) (text : String) (s : σ) (w : World σ) : Prop :=
  match output with
  | none => w.stdout = text ∧ w.files = s
  | some path => w.stdout = "" ∧ S.Puts path text s w.files

variable [ToString π]

/-- A run has done all that the arguments ask for, or nothing but complain. -/
structure AllOrNothing (tools : Tools α π) (arguments : List α) (s : σ) (e : Ending σ) :
    Prop where
  of_code_ne_zero : e.code ≠ 0 → e.world.stdout = "" ∧ e.world.files = s
  of_code_eq_zero : e.code = 0 →
    (∃ text, tools.command arguments = .error (.information text) ∧ e.world.stdout = text ∧
        e.world.files = s) ∨
      ∃ command text, tools.command arguments = .ok command ∧
        (command.request.run tools.description S.access s).1 = .ok text ∧
          S.Delivered command.output text s e.world
  code_eq_zero : ∀ command text, tools.command arguments = .ok command →
    (command.request.run tools.description S.access s).1 = .ok text →
      (∀ path ∈ command.output, (S.access.write path text s).1 = .ok ()) → e.code = 0

variable {tools : Tools α π} {arguments : List α} {outcome : Outcome}

theorem run_snd {read : Description.Reader} {request : Request π}
    {r : Except RequestFault String} (h : request.run read S.access s = (r, s')) : s' = s := by
  obtain ⟨-, rfl⟩ := Prod.mk.inj h
  exact S.read_snd request.input s

variable {S}

/-- Whatever can fail comes before anything is printed or written. -/
theorem unchanged_of_failure (h : Course tools S.access arguments s outcome s')
    (hcode : outcome.exitCode ≠ 0) : outcome.stdout = "" ∧ s' = s := by
  cases h with
  | noticed notice harg =>
    cases notice with
    | information => exact absurd rfl hcode
    | misuse => exact ⟨rfl, rfl⟩
  | undrawn command fault s' harg hrun => exact ⟨rfl, S.run_snd hrun⟩
  | unsaved command path text fault s₁ s₂ harg hout hrun hsave =>
    exact ⟨rfl, (S.save_error hsave).trans (S.run_snd hrun)⟩
  | shown | saved => exact absurd rfl hcode

theorem delivered_of_success (h : Course tools S.access arguments s outcome s')
    (hcode : outcome.exitCode = 0) (stderr : String) :
    (∃ text, tools.command arguments = .error (.information text) ∧ outcome.stdout = text ∧
        s' = s) ∨
      ∃ command text, tools.command arguments = .ok command ∧
        (command.request.run tools.description S.access s).1 = .ok text ∧
          S.Delivered command.output text s ⟨s', outcome.stdout, stderr⟩ := by
  cases h with
  | noticed notice harg =>
    cases notice with
    | information text => exact .inl ⟨text, harg, rfl, rfl⟩
    | misuse => cases hcode
  | shown command text s' harg hout hrun =>
    refine .inr ⟨command, text, harg, by rw [hrun], ?_⟩
    rw [hout]
    exact ⟨rfl, S.run_snd hrun⟩
  | saved command path text s₁ s₂ harg hout hrun hsave =>
    obtain rfl := S.run_snd hrun
    refine .inr ⟨command, text, harg, by rw [hrun], ?_⟩
    rw [hout]
    exact ⟨rfl, S.save_ok hsave⟩
  | undrawn | unsaved => cases hcode

theorem success_of_delivery (h : Course tools S.access arguments s outcome s')
    {command : Command π} (hdraw : tools.command arguments = .ok command)
    (htext : (command.request.run tools.description S.access s).1 = .ok text)
    (hwrite : ∀ path ∈ command.output, (S.access.write path text s).1 = .ok ()) :
    outcome.exitCode = 0 := by
  cases h with
  | noticed notice harg => cases harg.symm.trans hdraw
  | undrawn command fault s' harg hrun =>
    cases harg.symm.trans hdraw
    rw [hrun] at htext
    cases htext
  | unsaved command path text' fault s₁ s₂ harg hout hrun hsave =>
    cases harg.symm.trans hdraw
    obtain rfl := S.run_snd hrun
    obtain rfl : text' = text := by simpa [hrun] using htext
    have hfault := (Prod.mk.inj hsave).1
    rw [hwrite path hout] at hfault
    cases hfault
  | shown | saved => rfl

def ringText : String := "root = 'a'\n\n[[nodes]]\nid = 'a'\notherwise = 'a'\n"

def ring : Description := ⟨"a", [⟨"a", none, [], some "a", none⟩]⟩

def ringDocument : Document :=
  .ofStatements Layout.standard.attributes [⟨"a", "a", "otherwise", .blue⟩]

def ringFolder : FileTree := ⟨[(["ring.toml"], utf8 ringText)], [["out"]]⟩

def ringCommand (output : String) : Command String := ⟨"ring.toml", none, .none, some output⟩

def ringJournal : Journal String := ⟨some "info", fun _ _ => "logged\n"⟩

def ringRun (output : String) : Ending FileTree :=
  (Process.program standardTools FileTree.storage.access ringJournal
    ["ring.toml", "-o", output]).ending ringFolder

theorem draw_ring : ∃ g root, ring.link none = .ok (g, root) ∧
    g.draw LayoutFlags.none.layout root = .ok ringDocument :=
  ⟨⟨#v[⟨"a", [], some ⟨⟨0, by decide⟩, true⟩⟩]⟩, ⟨0, by decide⟩, rfl, by cbv⟩

theorem run_ring (output : String) : (ringCommand output).request.run standardTools.description
    FileTree.storage.access ringFolder = (.ok ringDocument.render, ringFolder) := by
  have hread : ringFolder.read "ring.toml" = .ok (utf8 ringText) := rfl
  have hfile : FileTree.storage.access.read (ringCommand output).request.input ringFolder =
      (.ok (utf8 ringText), ringFolder) := congrArg (·, ringFolder) hread
  have htext : Description.ofText Description.read ringText = .ok ring := by cbv
  obtain ⟨g, root, hlink, hdraw⟩ := draw_ring
  have hdoc : (ringCommand output).request.document Description.read (.ok (utf8 ringText)) =
      .ok ringDocument := Request.document_of_ok htext hlink hdraw
  rw [Request.run_eq, hfile]
  exact congrArg (fun x => (x.map Document.render, ringFolder)) hdoc

end Storage
end StateDiagram
