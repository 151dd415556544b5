import Backsweep.Cli.Command
import Backsweep.Diff.Builtin
import Backsweep.Module.Optimize

/-!
# The program

Differentiates the marked functions of the module in a file.
-/

namespace Backsweep.Cli

/-- What the program needs of the system it runs on. -/
structure Host (m : Type → Type) where
  isFile : String → m Bool
  /-- The text of a file, or what is wrong. -/
  read : String → m (Except String String)
  write : String → String → m (Except String Unit)
  /-- The seconds since the program was started. -/
  seconds : m String

/-- What a run of the program prints, and its exit code. -/
structure Outcome where
  code : Nat
  stdout : String := ""
  /-- Lines. -/
  stderr : List String := []

def versionText : String := "revad 0.1.0\n"

def helpText : String :=
  "Generates reverse mode derivatives of the marked functions in a module.\n\n" ++
  "Usage: revad [OPTIONS] [FILE]\n\n" ++
  "Arguments:\n" ++
  "  [FILE]  The module to differentiate.\n\n" ++
  "Options:\n" ++
  "      --catalog <FILE>  Additional derivative rules.\n" ++
  "      --fail-on-error   Fail if a marked function can not be differentiated instead of " ++
  "falling back to the dynamic graph.\n" ++
  "      --list-nodes      Print all known dependency nodes and exit.\n" ++
  "  -o, --output <FILE>   Write the module and its derivatives to FILE instead of stdout.\n" ++
  "  -h, --help            Print help\n" ++
  "  -V, --version         Print version\n"

/-- Exit code if the arguments are refused. -/
def usageCode : Nat := 2

/-- Exit code if the input can not be processed. -/
def dataCode : Nat := 65

/-- A node in the list of nodes, its name padded to 24 characters. -/
def nodeLine (n : Node) : String :=
  n.name ++ pad (24 - n.name.length) ++ " " ++ n.qualified ++ " (" ++ toString n.arity ++ " inputs)\n"

def warning (e : Event) : Option String :=
  match e with
  | .fellBack _ _ => some ("[WARN  revad] " ++ e.message)
  | _ => none

def finished (m : Module) (input seconds : String) : String :=
  "Finished differentiating " ++ toString m.derivatives.length ++ " functions of " ++ input ++ " in " ++
    seconds ++ "s (" ++ toString (m.derivatives.countP (·.strategy.isFallback)) ++
    " with the dynamic graph)"

/-- The warnings so far, and what went wrong: an error followed by its causes. -/
structure Failure where
  warnings : List String := []
  chain : List String

def Failure.outcome (f : Failure) (input : String) : Outcome where
  code := dataCode
  stderr := f.warnings ++ (f.chain ++ ["failed to differentiate " ++ input]).map ("error: " ++ ·)

variable {m : Type → Type} [Monad m]

/-- Registers the rules in files. -/
def loadCatalogues (host : Host m) (c : Catalogue) : List String → m (Except Failure Catalogue)
  | [] => return .ok c
  | path :: paths => do
    match ← host.read path with
    | .error e => return .error { chain := ["failed to read " ++ path, e] }
    | .ok src =>
      match Catalogue.addText src c with
      | .error e _ => return .error { chain := ["failed to load " ++ path, e.message] }
      | .ok _ c => loadCatalogues host c paths

/-- The module with its derivatives, and the warnings. -/
def differentiate (c : Catalogue) (failOnError : Bool) (input src : String) :
    Except Failure (Module × List String) :=
  match Func.readAll src with
  | .error e => .error { chain := ["failed to parse " ++ input, e.message] }
  | .ok fs =>
    match Module.optimize c { failOnError } fs #[] with
    | .error e events => .error { warnings := events.toList.filterMap warning, chain := e.chain }
    | .ok mod events => .ok (mod, events.toList.filterMap warning)

/-- Writes the module to the output, if there is one. -/
def writeModule (host : Host m) (output : Option String) (mod : Module) (warnings : List String) :
    m (Except Failure String) := do
  match output with
  | none => return .ok mod.text
  | some path =>
    match ← host.write path mod.text with
    | .error e => return .error { warnings, chain := ["failed to write " ++ path, e] }
    | .ok _ => return .ok ""

/-- Differentiates the module in a file. -/
def processFile (host : Host m) (c : Catalogue) (r : Request) (input : String) :
    m (Except Failure Outcome) := do
  match ← host.read input with
  | .error e => return .error { chain := ["failed to read " ++ input, e] }
  | .ok src =>
    match differentiate c r.failOnError input src with
    | .error f => return .error f
    | .ok (mod, warnings) =>
      match ← writeModule host r.output mod warnings with
      | .error f => return .error f
      | .ok stdout =>
        return .ok { code := 0, stdout, stderr := warnings ++ [finished mod input (← host.seconds)] }

def process (host : Host m) (r : Request) : m (Except Failure Outcome) := do
  match ← loadCatalogues host .builtin r.catalogues with
  | .error f => return .error f
  | .ok c =>
    if r.listNodes then return .ok { code := 0, stdout := String.join (c.listed.map nodeLine) }
    match r.input with
    | none => return .error { chain := ["no input file"] }
    | some input => processFile host c r input

/-- Those of the paths that are files. -/
def filesAmong (host : Host m) : List String → m (List String)
  | [] => return []
  | path :: paths => do
    let rest ← filesAmong host paths
    return if ← host.isFile path then path :: rest else rest

/-- Runs the program. -/
def program (host : Host m) (args : List String) : m Outcome := do
  let files ← filesAmong host (inputPaths args)
  match Command.ofArgs files.contains args with
  | .help => return { code := 0, stdout := helpText }
  | .version => return { code := 0, stdout := versionText }
  | .refuse e => return { code := usageCode, stderr := ["error: " ++ e.message] }
  | .run r =>
    match ← process host r with
    | .ok out => return out
    | .error f => return f.outcome (r.input.getD "")

end Backsweep.Cli
