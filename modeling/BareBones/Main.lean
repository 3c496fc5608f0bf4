import BareBones.CommandLine.Run

/-!
The program itself: the words of the command line, the files of the machine it
runs on and its standard streams.
-/

namespace BareBones.CommandLine

/-- Codes of the system come with either sign. -/
def FileError.ofIO : IO.Error → FileError
  | .noFileOrDirectory .. => .notFound
  | .inappropriateType _ code _ =>
    if code = 20 ∨ code = -20 then .notDirectory else .isDirectory
  | .invalidArgument _ code cause =>
    if code = 36 ∨ code = -36 then .nameTooLong else .other cause
  | e => .other (toString e)

def diskFiles : Files IO where
  read path := do
    match ← (IO.FS.readBinFile path).toBaseIO with
    | .error e => return .error (.ofIO e)
    | .ok content =>
      match String.fromUTF8? content with
      | some text => return .ok text
      | none => return .error .notText
  write path text := do
    match ← (IO.FS.writeFile path text).toBaseIO with
    | .error e => return .error (.ofIO e)
    | .ok () => return .ok ()

end BareBones.CommandLine

def main (words : List String) : IO UInt32 := do
  let outcome ← BareBones.CommandLine.run BareBones.CommandLine.diskFiles words
  IO.eprint outcome.stderr
  IO.print outcome.stdout
  return outcome.exit.toUInt32
