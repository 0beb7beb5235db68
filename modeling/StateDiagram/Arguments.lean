import StateDiagram.CommandLine
import StateDiagram.Description.Decoding

/-! What the arguments of the command line say. They are taken one by one from the left; the first
one that cannot be accepted, or that asks for information only, settles the matter. -/
namespace StateDiagram

inductive Setting
  | root | rankSeparation | output
  deriving DecidableEq, Repr

inductive Toggle
  | topToBottom | noRankSeparation
  deriving DecidableEq, Repr

inductive UsageError
  | unknownOption (argument : String)
  | unwantedValue (argument : String)
  | missingValue (setting : Setting)
  | repeatedSetting (setting : Setting)
  | repeatedToggle (toggle : Toggle)
  | conflict
  | missingGraph
  | emptyGraph
  | extraGraph (argument : String)
  deriving DecidableEq, Repr

def Setting.name : Setting → String
  | root => "--root"
  | rankSeparation => "--ranksep"
  | output => "--output"

def Toggle.name : Toggle → String
  | topToBottom => "--top-to-bottom"
  | noRankSeparation => "--no-ranksep"

namespace UsageError

def message : UsageError → String
  | unknownOption argument => s!"unexpected argument '{argument}' found"
  | unwantedValue argument => s!"unexpected value in '{argument}'"
  | missingValue setting => s!"a value is required for '{setting.name}'"
  | repeatedSetting setting => s!"the argument '{setting.name}' cannot be used multiple times"
  | repeatedToggle toggle => s!"the argument '{toggle.name}' cannot be used multiple times"
  | conflict => "the argument '--ranksep' cannot be used with '--no-ranksep'"
  | missingGraph => "the GRAPH argument is missing"
  | emptyGraph => "the GRAPH argument is empty"
  | extraGraph argument => s!"unexpected argument '{argument}' found"

end UsageError

inductive Invocation
  | help
  | version
  | draw (command : Command String)
  deriving DecidableEq, Repr

structure Given where
  graph : Option String
  setting : Setting → Option String
  toggle : Toggle → Bool

namespace Given

def nothing : Given := ⟨none, fun _ => none, fun _ => false⟩

def addGraph (g : Given) (argument : String) : Except UsageError Given :=
  if g.graph.isSome then .error (.extraGraph argument)
  else if argument = "" then .error .emptyGraph
  else .ok { g with graph := some argument }

def addSetting (g : Given) (s : Setting) (value : String) : Except UsageError Given :=
  if (g.setting s).isSome then .error (.repeatedSetting s)
  else .ok { g with setting := fun s' => if s' = s then some value else g.setting s' }

def addToggle (g : Given) (t : Toggle) : Except UsageError Given :=
  if g.toggle t then .error (.repeatedToggle t)
  else .ok { g with toggle := fun t' => t' = t || g.toggle t' }

def layoutFlags (g : Given) : LayoutFlags where
  topToBottom := g.toggle .topToBottom
  rankSeparation := g.setting .rankSeparation
  noRankSeparation := g.toggle .noRankSeparation

def finish (g : Given) : Except UsageError Invocation :=
  match g.graph with
  | none => .error .missingGraph
  | some input =>
    if g.toggle .noRankSeparation && (g.setting .rankSeparation).isSome then .error .conflict
    else .ok (.draw ⟨input, g.setting .root, g.layoutFlags, g.setting .output⟩)

end Given

inductive Argument
  | graph (path : String)
  | help
  | version
  | toggle (t : Toggle)
  /-- A setting, with the value if it is part of the argument. -/
  | setting (s : Setting) (value : Option String)
  /-- Nothing after this argument is an option. -/
  | terminator
  deriving DecidableEq, Repr

namespace Argument

/-- An option with two dashes, by its name and the value after an equals sign. -/
def ofLong (argument name : String) (value : Option String) : Except UsageError Argument :=
  let bare (a : Argument) : Except UsageError Argument :=
    if value.isSome then .error (.unwantedValue argument) else .ok a
  match name with
  | "root" => .ok (.setting .root value)
  | "ranksep" => .ok (.setting .rankSeparation value)
  | "output" => .ok (.setting .output value)
  | "top-to-bottom" => bare (.toggle .topToBottom)
  | "no-ranksep" => bare (.toggle .noRankSeparation)
  | "help" => bare .help
  | "version" => bare .version
  | _ => .error (.unknownOption argument)

/-- Read one argument. A dash alone is the name of a file. -/
def read (argument : String) : Except UsageError Argument :=
  match argument.toList with
  | ['-', '-'] => .ok .terminator
  | '-' :: '-' :: rest =>
    match rest.span (· ≠ '=') with
    | (name, '=' :: value) => ofLong argument (String.ofList name) (some (String.ofList value))
    | (name, _) => ofLong argument (String.ofList name) none
  | '-' :: 'o' :: '=' :: value => .ok (.setting .output (some (String.ofList value)))
  | ['-', 'o'] => .ok (.setting .output none)
  | '-' :: 'o' :: value => .ok (.setting .output (some (String.ofList value)))
  | '-' :: 'V' :: _ => .ok .version
  | '-' :: 'h' :: _ => .ok .help
  | '-' :: _ :: _ => .error (.unknownOption argument)
  | _ => .ok (.graph argument)

/-- Whether an argument can be the value of the setting before it. -/
def isValue (argument : String) : Bool :=
  match argument.toList with
  | '-' :: _ :: _ => false
  | _ => true

end Argument

namespace Invocation

def ofArguments (g : Given) : List String → Except UsageError Invocation
  | [] => g.finish
  | argument :: rest => do
    match ← Argument.read argument with
    | .help => return .help
    | .version => return .version
    | .graph path => ofArguments (← g.addGraph path) rest
    | .toggle t => ofArguments (← g.addToggle t) rest
    | .terminator => (← rest.foldlM Given.addGraph g).finish
    | .setting s (some value) => ofArguments (← g.addSetting s value) rest
    | .setting s none =>
      match rest with
      | [] => throw (.missingValue s)
      | value :: rest =>
        if Argument.isValue value then ofArguments (← g.addSetting s value) rest
        else throw (.missingValue s)

end Invocation

namespace Command

def usage : String := "Usage: lldot [OPTIONS] <GRAPH>\n"

def help : String :=
  "lldot: draw parser state machines as Graphviz DOT\n\n" ++ usage ++
  "\nArguments:\n  <GRAPH>  Graph description file (TOML)\n\nOptions:\n" ++
  "      --root <ID>        Node id to start rendering from, " ++
  "instead of the description's `root`\n" ++
  "      --top-to-bottom    Lay ranks out top to bottom instead of left to right\n" ++
  "      --ranksep <VALUE>  Value written into the `ranksep` attribute " ++
  "(default: \"1.0 equally\")\n" ++
  "      --no-ranksep       Leave the `ranksep` attribute out\n" ++
  "  -o, --output <FILE>    Output file path (writes to file instead of stdout)\n" ++
  "  -h, --help             Print help\n" ++
  "  -V, --version          Print version\n"

def version : String := "lldot 0.1.0\n"

def ofArguments (arguments : List String) : Except Notice (Command String) :=
  match Invocation.ofArguments .nothing arguments with
  | .error e =>
    .error (.misuse s!"error: {e.message}\n\n{usage}\nFor more information, try '--help'.\n")
  | .ok .help => .error (.information help)
  | .ok .version => .error (.information version)
  | .ok (.draw command) => .ok command

end Command

def standardTools : Tools String String where
  command := Command.ofArguments
  description := Description.read

end StateDiagram
