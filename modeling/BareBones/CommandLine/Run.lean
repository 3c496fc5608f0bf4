import BareBones.CommandLine.Arguments
import BareBones.CommandLine.FileTree
import BareBones.Compile

/-!
One run of the program. The output is written only after the whole input has been
compiled, so a run that fails leaves every file as it was.
-/

namespace BareBones.CommandLine

/-- What a run leaves on its standard streams, and its exit status. -/
structure Outcome where
  exit : Nat
  stdout : String := ""
  stderr : String := ""

/-- The two things a run does with files. -/
structure Files (m : Type → Type) where
  read : String → m (Except FileError String)
  write : String → String → m (Except FileError Unit)

def banner : String := "Bare bones to C translator 1.0.0\n"

def help : String := banner ++ "
USAGE:
    bbc [OPTIONS] <INPUT>

ARGS:
    <INPUT>    Bare bones source file

OPTIONS:
        --compact              Minimal whitespace
    -h, --help                 Print help information
    -o, --output <FILE>        Output file ('-' for stdout) [default: out.c]
        --pretty               One statement per line, indented blocks
        --trace-productions    Print every grammar production to stderr
        --trace-tokens         Print every token to stderr
    -V, --version              Print version information
"

def Halt.outcome : Halt → Outcome
  | help => { exit := 0, stdout := CommandLine.help }
  | version => { exit := 0, stdout := banner }
  | usage e => { exit := 2, stderr := "error: " ++ e.message ++ "\n" }

/-- The account of a file that could not be read or written. -/
def failure (doing path : String) (e : FileError) : String :=
  "Error: " ++ doing ++ ": " ++ path ++ "\n\nCaused by:\n    " ++ e.cause ++ "\n"

/-- A path stands for the standard output if its only part is a dash. -/
def isStdout (path : String) : Bool :=
  match pathSteps path with
  | "-" :: rest => rest.all fun s => s = "" || s = "."
  | _ => false

def Job.run {m : Type → Type} [Monad m] (files : Files m) (j : Job) : m Outcome := do
  match ← files.read j.input with
  | .error e => return { exit := 1, stderr := failure "Cannot access the input file" j.input e }
  | .ok text =>
    let source : Source := ⟨j.input, text⟩
    let (result, records) := source.translate j.format j.watch
    let trace := String.join records
    match result with
    | .error report => return { exit := 1, stderr := trace ++ report.render }
    | .ok c =>
      if isStdout j.output then return { exit := 0, stdout := c, stderr := trace }
      match ← files.write j.output c with
      | .ok () => return { exit := 0, stderr := trace }
      | .error e =>
        return { exit := 1, stderr := trace ++ failure "Failed to write output file" j.output e }

def run {m : Type → Type} [Monad m] (files : Files m) (words : List String) : m Outcome :=
  match Job.ofArguments words with
  | .ok job => job.run files
  | .error halt => pure halt.outcome

/-- Files that are kept in a tree. -/
def FileTree.files : Files (StateM FileTree) where
  read path := return (← get).read path
  write path text := do
    match (← get).write path text with
    | .ok tree => set tree; return .ok ()
    | .error e => return .error e

end BareBones.CommandLine
