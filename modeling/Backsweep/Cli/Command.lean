/-!
# The command line

What the arguments of the program ask for.
-/

namespace Backsweep.Cli

/-- What to do with a module. -/
structure Request where
  /-- Files with further derivative rules, in order. -/
  catalogues : List String := []
  failOnError : Bool := false
  listNodes : Bool := false
  /-- Where to write the module to. -/
  output : Option String := none
  input : Option String := none

/-- Why arguments are refused. -/
inductive UsageError where
  | noArguments
  | unexpected (arg : String)
  | repeated (option : String)
  | missingValue (option : String)
  | unexpectedValue (option : String)
  | notAFile (path : String)
  | missingInput

def UsageError.message : UsageError → String
  | noArguments => "no arguments"
  | unexpected arg => "unexpected argument '" ++ arg ++ "'"
  | repeated option => "the argument '" ++ option ++ "' cannot be used multiple times"
  | missingValue option => "a value is required for '" ++ option ++ "'"
  | unexpectedValue option => "no value is allowed for '" ++ option ++ "'"
  | notAFile path => "'" ++ path ++ "' is not a file"
  | missingInput => "no input file"

inductive Command where
  | run (r : Request)
  | help
  | version
  | refuse (e : UsageError)

/-- One argument, or an option together with its value. -/
inductive Item where
  | catalogue (path : String)
  | failOnError
  | listNodes
  | output (path : String)
  | positional (path : String)
  | help
  | version
  | wrong (e : UsageError)

namespace Item

/-- The options that take a value. -/
inductive Valued where
  | catalogue
  | output

def Valued.name : Valued → String
  | catalogue => "--catalog"
  | output => "--output"

def ofValue : Valued → String → Item
  | .catalogue, path => catalogue path
  | .output, path => output path

/-- Whether an argument can be the value of the option before it. -/
def isValue (arg : String) : Bool :=
  match arg.toList with
  | '-' :: _ :: _ => false
  | _ => true

/-- A word behind `--` and what follows its first equals sign. -/
def splitLong (cs : List Char) : String × Option String :=
  match cs.dropWhile (· != '=') with
  | _ :: value => (String.ofList (cs.takeWhile (· != '=')), some (String.ofList value))
  | [] => (String.ofList cs, none)

/-- What an argument is: an item, an option that waits for its value, or the
end of the options. -/
inductive Shape where
  | item (i : Item)
  | waiting (v : Valued)
  | endOfOptions

def valued (v : Valued) : Option String → Shape
  | some value => .item (ofValue v value)
  | none => .waiting v

def flag (i : Item) (name : String) : Option String → Shape
  | some _ => .item (wrong (.unexpectedValue name))
  | none => .item i

/-- An argument that starts with `--`. -/
def long (arg : String) (cs : List Char) : Shape :=
  match splitLong cs with
  | ("catalog", value) => valued .catalogue value
  | ("output", value) => valued .output value
  | ("fail-on-error", value) => flag failOnError "--fail-on-error" value
  | ("list-nodes", value) => flag listNodes "--list-nodes" value
  | ("help", value) => flag help "--help" value
  | ("version", value) => flag version "--version" value
  | _ => .item (wrong (.unexpected arg))

/-- An argument that starts with a single `-`. -/
def short (arg : String) : List Char → Shape
  | 'h' :: _ => .item help
  | 'V' :: _ => .item version
  | ['o'] => .waiting .output
  | 'o' :: '=' :: value => .item (output (String.ofList value))
  | 'o' :: value => .item (output (String.ofList value))
  | _ => .item (wrong (.unexpected arg))

def shape (arg : String) : Shape :=
  match arg.toList with
  | ['-', '-'] => .endOfOptions
  | '-' :: '-' :: cs => long arg cs
  | '-' :: c :: cs => short arg (c :: cs)
  | _ => .item (positional arg)

mutual

/-- Splits arguments into items. -/
def split : List String → List Item
  | [] => []
  | arg :: args =>
    match shape arg with
    | .item i => i :: split args
    | .endOfOptions => args.map positional
    | .waiting v => splitValue v args

/-- Takes the value of an option. -/
def splitValue (v : Valued) : List String → List Item
  | [] => [wrong (.missingValue v.name)]
  | arg :: args =>
    if isValue arg then ofValue v arg :: split args else [wrong (.missingValue v.name)]

end

end Item

/-- Adds an item to a request. The first item that is wrong, or asks for help
or the version, decides. -/
def addItem (isFile : String → Bool) (r : Request) : Item → Except Command Request
  | .catalogue path =>
    if isFile path then .ok { r with catalogues := r.catalogues ++ [path] }
    else .error (.refuse (.notAFile path))
  | .failOnError =>
    if r.failOnError then .error (.refuse (.repeated "--fail-on-error"))
    else .ok { r with failOnError := true }
  | .listNodes =>
    if r.listNodes then .error (.refuse (.repeated "--list-nodes")) else .ok { r with listNodes := true }
  | .output path =>
    if r.output.isSome then .error (.refuse (.repeated "--output")) else .ok { r with output := some path }
  | .positional path =>
    if r.input.isSome then .error (.refuse (.unexpected path))
    else if isFile path then .ok { r with input := some path }
    else .error (.refuse (.notAFile path))
  | .help => .error .help
  | .version => .error .version
  | .wrong e => .error (.refuse e)

def addItems (isFile : String → Bool) : Request → List Item → Except Command Request
  | r, [] => .ok r
  | r, i :: is => do addItems isFile (← addItem isFile r i) is

/-- What arguments ask for, given which paths are files. -/
def Command.ofArgs (isFile : String → Bool) (args : List String) : Command :=
  if args.isEmpty then .refuse .noArguments
  else match addItems isFile {} (Item.split args) with
    | .error c => c
    | .ok r => if r.input.isNone && !r.listNodes then .refuse .missingInput else .run r

/-- The paths that have to be files. -/
def inputPaths (args : List String) : List String :=
  (Item.split args).filterMap fun
    | .catalogue path => some path
    | .positional path => some path
    | _ => none

end Backsweep.Cli
