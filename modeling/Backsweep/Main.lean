import Backsweep.Cli.Program

/-!
# Entry point

Runs the program on the files of the system.
-/

namespace Backsweep.Cli

/-- The text of a system error. -/
def systemError : IO.Error → String
  | .noFileOrDirectory _ _ _ => "No such file or directory (os error 2)"
  | .permissionDenied _ _ _ => "Permission denied (os error 13)"
  | .inappropriateType _ code details => details ++ " (os error " ++ toString code ++ ")"
  | e => toString e

/-- Runs an action and turns its error into text. -/
def attempt {α : Type} (act : IO α) : IO (Except String α) := do
  match ← act.toBaseIO with
  | .ok x => return .ok x
  | .error e => return .error (systemError e)

def readText (path : String) : IO (Except String String) := do
  match ← attempt (IO.FS.readBinFile path) with
  | .error e => return .error e
  | .ok bytes =>
    match String.fromUTF8? bytes with
    | some text => return .ok text
    | none => return .error "stream did not contain valid UTF-8"

/-- Milliseconds as seconds with two places. -/
def secondsText (ms : Nat) : String :=
  let hundredths := (ms + 5) / 10
  let places := toString (hundredths % 100)
  toString (hundredths / 100) ++ "." ++ (if places.length < 2 then "0" else "") ++ places

/-- The system, for a program started at the given time. -/
def system (start : Nat) : Host IO where
  isFile path := do return (← attempt (IO.FS.readBinFile path)).isOk
  read := readText
  write path text := attempt (IO.FS.writeFile path text)
  seconds := do return secondsText ((← IO.monoMsNow) - start)

end Backsweep.Cli

/-- Differentiates the module named on the command line. -/
def main (args : List String) : IO UInt32 := do
  let out ← Backsweep.Cli.program (Backsweep.Cli.system (← IO.monoMsNow)) args
  IO.print out.stdout
  for line in out.stderr do
    IO.eprintln line
  return out.code.toUInt32
