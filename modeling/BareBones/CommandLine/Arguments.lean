import BareBones.C.Line
import BareBones.Syntax.Trace

/-!
The words of a command line. One word is the input; `-o` and `--output` take a
value, attached or as the next word; everything after `--` is taken literally. A
word that begins with a dash and is longer than that is never a value. Help and
version are answered where they stand, before anything behind them is looked at.
-/

namespace BareBones.CommandLine

inductive UsageError where
  | unknownOption (word : String)
  | unneededValue (word : String)
  | emptyValue
  | extraArgument (word : String)
  | missingInput
  | missingValue
  | repeatedOutput
  | conflictingFormats
deriving DecidableEq

def UsageError.message : UsageError → String
  | unknownOption w => "unknown option " ++ w
  | unneededValue w => "option " ++ w ++ " takes no value"
  | emptyValue => "a path cannot be empty"
  | extraArgument w => "unexpected argument " ++ w
  | missingInput => "no input file given"
  | missingValue => "option --output needs a value"
  | repeatedOutput => "option --output given more than once"
  | conflictingFormats => "options --pretty and --compact exclude each other"

inductive Switch where
  | pretty
  | compact
  | traceTokens
  | traceProductions
deriving DecidableEq

def Switch.name : Switch → String
  | pretty => "pretty"
  | compact => "compact"
  | traceTokens => "trace-tokens"
  | traceProductions => "trace-productions"

def Switch.ofName? (s : String) : Option Switch :=
  [pretty, compact, traceTokens, traceProductions].find? (·.name = s)

/-- Why the words are not read to their end. -/
inductive Halt where
  | help
  | version
  | usage (error : UsageError)
deriving DecidableEq

/-- What the words read so far ask for. -/
structure Given where
  input : Option String := none
  /-- Newest first; an `-o` that was left without a value counts as `none`. -/
  outputs : List (Option String) := []
  switches : List Switch := []
  /-- The last word asks for the output's value. -/
  awaiting : Bool := false
  /-- All further words are inputs. -/
  literal : Bool := false

namespace Given

/-- Stops waiting for a value. -/
def settle (g : Given) : Given :=
  if g.awaiting then { g with awaiting := false, outputs := none :: g.outputs } else g

def output (g : Given) (value : String) : Except Halt Given :=
  if value = "" then .error (.usage .emptyValue)
  else .ok { g with awaiting := false, outputs := some value :: g.outputs }

def positional (g : Given) (word : String) : Except Halt Given :=
  if g.input.isSome then .error (.usage (.extraArgument word))
  else if word = "" then .error (.usage .emptyValue)
  else .ok { g with input := some word }

/-- An option spelled out, with what follows its `=` if there is one. -/
def long (g : Given) (name : String) (attached : Option String) : Except Halt Given :=
  if name = "output" then
    match attached with
    | some value => g.output value
    | none => .ok { g with awaiting := true }
  else if attached.isSome then
    if name = "help" ∨ name = "version" ∨ (Switch.ofName? name).isSome then
      .error (.usage (.unneededValue name))
    else .error (.usage (.unknownOption name))
  else if name = "help" then .error .help
  else if name = "version" then .error .version
  else
    match Switch.ofName? name with
    | some s => .ok { g with switches := s :: g.switches }
    | none => .error (.usage (.unknownOption name))

/-- An option of one letter, with the characters directly behind it. -/
def short (g : Given) (letter : Char) (behind : List Char) : Except Halt Given :=
  match letter, behind with
  | 'h', _ => .error .help
  | 'V', _ => .error .version
  | 'o', [] => .ok { g with awaiting := true }
  | 'o', '=' :: value => g.output (String.ofList value)
  | 'o', value => g.output (String.ofList value)
  | _, _ => .error (.usage (.unknownOption (String.singleton letter)))

def attachedValue : List Char → Option String
  | '=' :: value => some (String.ofList value)
  | _ => none

def take (g : Given) (word : String) : Except Halt Given :=
  if g.literal then g.settle.positional word
  else
    match word.toList with
    | ['-', '-'] => .ok { g.settle with literal := true }
    | '-' :: '-' :: cs =>
      g.settle.long (String.ofList (cs.takeWhile (· ≠ '=')))
        (attachedValue (cs.dropWhile (· ≠ '=')))
    | '-' :: c :: cs => g.settle.short c cs
    | _ => if g.awaiting then g.output word else g.positional word

end Given

/-- A compilation that the command line asks for. -/
structure Job where
  input : String
  output : String
  format : C.Format
  watch : Watch

def defaultOutput : String := "out.c"

/-- Judges the words as a whole. -/
def Given.job (g : Given) : Except Halt Job :=
  let g := g.settle
  if none ∈ g.outputs then .error (.usage .missingValue)
  else if 1 < g.outputs.length then .error (.usage .repeatedOutput)
  else if .pretty ∈ g.switches ∧ .compact ∈ g.switches then .error (.usage .conflictingFormats)
  else
    match g.input with
    | none => .error (.usage .missingInput)
    | some input => .ok {
        input
        output := (g.outputs.head?.join).getD defaultOutput
        format := if .compact ∈ g.switches then .compact else .pretty
        watch := ⟨.traceTokens ∈ g.switches, .traceProductions ∈ g.switches⟩ }

def Job.ofArguments (words : List String) : Except Halt Job := do
  (← words.foldlM Given.take {}).job

end BareBones.CommandLine
