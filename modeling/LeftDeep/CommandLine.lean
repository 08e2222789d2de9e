import LeftDeep.Format.Workload
import LeftDeep.Plan.Tree
import LeftDeep.Workload.Prepare

/-!
# The command line

The program takes a command, a workload file, and two options that override the configuration of
the file:

    plan FILE       lists the chosen join order
    explain FILE    draws it as a tree
    -s, --strategy NAME              the search: auto, greedy or dp
    -t, --greedy-threshold NUMBER    the largest number of joins that auto searches exhaustively

Options may stand before or after the command, each at most once on either side; the one after the
command wins. A value follows its option as the next argument, behind an equals sign, or directly
behind the letter. After `--` every argument is an operand.

## Main definitions

* `Invocation.parse?`: what the arguments ask for.
* `Invocation.run`: what the program prints for the content of the file.
* `Failure.report`: the text of a failure and its causes.
-/

namespace LeftDeep

/-- What to do with the chosen plan. -/
inductive Command where
  | plan
  | explain
  deriving DecidableEq, Repr

/-- The command of a word. -/
def Command.ofWord? : String → Option Command
  | "plan" => some plan
  | "explain" => some explain
  | _ => none

/-- The overrides given by options. -/
structure Overrides where
  strategy : Option Strategy := none
  greedyThreshold : Option UInt64 := none
  deriving DecidableEq, Repr

namespace Overrides

/-- The overrides of two places; the later one wins. -/
def orElse (later earlier : Overrides) : Overrides :=
  { strategy := later.strategy.or earlier.strategy
    greedyThreshold := later.greedyThreshold.or earlier.greedyThreshold }

/-- A configuration under the overrides. -/
def apply (o : Overrides) (config : SearchConfig) : SearchConfig :=
  { strategy := o.strategy.getD config.strategy
    greedyThreshold := o.greedyThreshold.getD config.greedyThreshold }

end Overrides

/-- What the arguments ask for. -/
structure Invocation where
  command : Command
  file : String
  overrides : Overrides
  deriving DecidableEq, Repr

/-! ## Arguments -/

/-- An option. -/
inductive Flag where
  | strategy
  | greedyThreshold
  deriving DecidableEq, Repr

/-- An argument, with the value of an option joined to it. -/
inductive Argument where
  | option (flag : Flag) (value : String)
  /-- An argument that is neither an option nor the value of one. -/
  | word (text : String)
  /-- An argument after `--`. -/
  | operand (text : String)
  deriving DecidableEq, Repr

/-- What one argument is on its own. -/
inductive ArgumentShape where
  | word
  | separator
  | option (flag : Flag) (value : String)
  /-- An option whose value is the next argument. -/
  | awaiting (flag : Flag)
  | unknown

namespace Argument

/-- An option by its letter; what follows the letter is its value. -/
def shortShape (flag : Flag) : List Char → ArgumentShape
  | [] => .awaiting flag
  | '=' :: value => .option flag (String.ofList value)
  | value => .option flag (String.ofList value)

/-- An option by its name; a value may follow an equals sign. -/
def longShape (flag : Flag) : List Char → ArgumentShape
  | [] => .awaiting flag
  | '=' :: value => .option flag (String.ofList value)
  | _ => .unknown

/-- The names of the options. -/
def longNames : List (List Char × Flag) :=
  [("strategy".toList, .strategy), ("greedy-threshold".toList, .greedyThreshold)]

/-- What one argument is on its own. A lone hyphen is a word. -/
def shape (text : String) : ArgumentShape :=
  match text.toList with
  | ['-', '-'] => .separator
  | '-' :: '-' :: long =>
    let (name, value) := long.span (· != '=')
    match longNames.lookup name with
    | some flag => longShape flag value
    | none => .unknown
  | '-' :: 's' :: value => shortShape .strategy value
  | '-' :: 't' :: value => shortShape .greedyThreshold value
  | '-' :: _ :: _ => .unknown
  | _ => .word

/-- Joins values to their options. -/
def ofStrings? : List String → Option (List Argument)
  | [] => some []
  | text :: rest =>
    match shape text with
    | .word => (ofStrings? rest).map (.word text :: ·)
    | .separator => some (rest.map .operand)
    | .option flag value => (ofStrings? rest).map (.option flag value :: ·)
    | .awaiting flag =>
      match rest with
      | [] => none
      | value :: rest => (ofStrings? rest).map (.option flag value :: ·)
    | .unknown => none

end Argument

/-- A number of joins: decimal digits, which a plus sign may precede. -/
def thresholdOfText? (text : String) : Option UInt64 :=
  let digits := match text.toList with
    | '+' :: rest => rest
    | all => all
  match Digit.span digits with
  | (d :: ds, []) =>
    let n := Digit.value (d :: ds)
    if n < UInt64.size then some n.toUInt64 else none
  | _ => none

/-- Adds an option, unless it was given before. -/
def Overrides.add? (o : Overrides) (value : String) : Flag → Option Overrides
  | .strategy =>
    match o.strategy, Strategy.parse value with
    | none, .ok s => some { o with strategy := some s }
    | _, _ => none
  | .greedyThreshold =>
    match o.greedyThreshold, thresholdOfText? value with
    | none, some n => some { o with greedyThreshold := some n }
    | _, _ => none

namespace Invocation

/-- The options before the command, the command, and the arguments after it. -/
def command? (o : Overrides) :
    List Argument → Option (Overrides × Command × List Argument)
  | [] => none
  | .option flag value :: rest => (o.add? value flag).bind fun o => command? o rest
  | .word text :: rest => (Command.ofWord? text).map fun c => (o, c, rest)
  | .operand _ :: _ => none

/-- The options after the command, and the operands. -/
def operands? (o : Overrides) : List Argument → Option (Overrides × List String)
  | [] => some (o, [])
  | .option flag value :: rest => (o.add? value flag).bind fun o => operands? o rest
  | .word text :: rest => (operands? o rest).map fun (o, texts) => (o, text :: texts)
  | .operand text :: rest => (operands? o rest).map fun (o, texts) => (o, text :: texts)

/-- What the arguments ask for: one command on one file with a name. -/
def parse? (args : List String) : Option Invocation := do
  let all ← Argument.ofStrings? args
  let (before, command, rest) ← command? {} all
  let (after, operands) ← operands? {} rest
  match operands with
  | [file] => if file.isEmpty then none else some { command, file, overrides := after.orElse before }
  | _ => none

end Invocation

/-! ## Outcomes -/

/-- A failure: what was being done, and why it failed, the immediate cause first. -/
structure Failure where
  context : String
  causes : List String
  deriving DecidableEq, Repr

namespace Failure

/-- A text behind a margin, with its further lines indented to the same column. -/
def indented (margin : String) (text : String) : String :=
  let indent := String.ofList (margin.toList.map fun _ => ' ')
  margin ++ String.ofList (text.toList.flatMap fun c =>
    if c = '\n' then c :: indent.toList else [c])

/-- A number, right-aligned in five columns and followed by a colon. -/
def numberMargin (n : Nat) : String :=
  let digits := toString n
  String.ofList (List.replicate (5 - digits.length) ' ') ++ digits ++ ": "

/-- The lines of the causes. They are numbered if there are several. -/
def causeLines (causes : List String) : List String :=
  match causes with
  | [cause] => [indented "    " cause]
  | _ => causes.zipIdx.map fun (cause, i) => indented (numberMargin i) cause

/-- The report of a failure. -/
def report (f : Failure) : String :=
  "Error: " ++ f.context ++ "\n\nCaused by:"
    ++ String.join ((causeLines f.causes).map ("\n" ++ ·)) ++ "\n"

end Failure

/-- What a run of the program leaves behind. -/
structure Outcome where
  code : UInt32
  stdout : String := ""
  stderr : String := ""
  deriving DecidableEq, Repr

namespace Outcome

/-- The arguments were rejected. -/
def usageError : Outcome :=
  { code := 2, stderr := "usage: [-s NAME] [-t NUMBER] plan|explain FILE\n" }

/-- The run failed. -/
def ofFailure (f : Failure) : Outcome := { code := 1, stderr := f.report }

end Outcome

namespace Invocation

/-- What is printed of a plan. -/
def output (command : Command) (query : Query) (plan : Plan) : String :=
  match command with
  | .plan =>
    let heading := match query.source with
      | some source => "Query: " ++ source ++ "\n"
      | none => ""
    heading ++ plan.text ++ "\n"
  | .explain => plan.drawing ++ "\n"

/-- The error of a stage as a failure of the run. -/
def stage {ε α : Type} (context : String) (causes : ε → List String) (result : Except ε α) :
    Except Failure α :=
  result.mapError fun e => { context, causes := causes e }

/-- The text that the command prints for the content of the file. -/
def outputOf (i : Invocation) (content : Except ReadError ByteArray) : Except Failure String := do
  let workload ← stage ("Failed to load workload " ++ i.file) WorkloadError.causes
    (Workload.ofFile content)
  let inputs ← stage ("Invalid workload " ++ i.file) WorkloadError.causes workload.inputs
  let plan ← stage "Join ordering failed" (fun e => [PlanError.message e])
    (inputs.plan (i.overrides.apply workload.config))
  .ok (output i.command inputs.query plan)

/-- What the program does, given the content of the file. -/
def run (i : Invocation) (content : Except ReadError ByteArray) : Outcome :=
  match i.outputOf content with
  | .ok text => { code := 0, stdout := text }
  | .error f => .ofFailure f

end Invocation
end LeftDeep
