import Backsweep.Cli.Program

/-!
# A folder in memory

Files by path, to run the program on without a disk. The folder stands in a
larger system of which nothing is known but that the folders above it exist.
-/

namespace Backsweep.Cli

/-- The files of a folder. A path is the list of its names; folders exist as
far as files need them. -/
structure Folder where
  files : List (List String × String) := []

namespace Folder

def file? (d : Folder) (path : List String) : Option String := d.files.lookup path

def put (d : Folder) (path : List String) (text : String) : Folder :=
  ⟨(path, text) :: d.files.filter (·.1 != path)⟩

/-- Whether a path is the folder itself or leads to a folder in it. -/
def isFolder (d : Folder) (path : List String) : Bool :=
  path.isEmpty || d.files.any fun (p, _) => path != p && path.isPrefixOf p

/-- Why a path can not be used. -/
inductive Fault where
  | missing
  | notAFolder
  | isAFolder
  | tooLong
deriving DecidableEq

def Fault.message : Fault → String
  | missing => "No such file or directory (os error 2)"
  | notAFolder => "Not a directory (os error 20)"
  | isAFolder => "Is a directory (os error 21)"
  | tooLong => "File name too long (os error 36)"

/-- Where a path leads to. -/
inductive Place where
  /-- Within the folder. The path may be free. -/
  | inside (path : List String)
  /-- A folder above. -/
  | above
  /-- A name in a folder above, of which nothing is known. -/
  | beyond
deriving DecidableEq

/-- Most bytes of a name. -/
def maxName : Nat := 255

/-- Most bytes of a path. -/
def maxPath : Nat := 4095

/-- The place that a name leads to from a folder. -/
def enter (d : Folder) (here : Place) (name : String) : Except Fault Place :=
  match here with
  | .beyond => .error .missing
  | .above =>
    if name = "." || name = ".." then .ok .above
    else if maxName < name.utf8ByteSize then .error .tooLong
    else .ok .beyond
  | .inside path =>
    if (d.file? path).isSome then .error .notAFolder
    else if !d.isFolder path then .error .missing
    else if name = "." then .ok (.inside path)
    else if name = ".." then .ok (if path.isEmpty then .above else .inside path.dropLast)
    else if maxName < name.utf8ByteSize then .error .tooLong
    else .ok (.inside (path ++ [name]))

def follow (d : Folder) : Place → List String → Except Fault Place
  | p, [] => .ok p
  | p, name :: names => do d.follow (← d.enter p name) names

/-- The names of a path between its slashes. -/
def names : List Char → List Char → List String
  | name, [] => if name.isEmpty then [] else [String.ofList name.reverse]
  | name, c :: cs =>
    if c = '/' then
      if name.isEmpty then names [] cs else String.ofList name.reverse :: names [] cs
    else names (c :: name) cs

/-- Where a path leads to. -/
def place (d : Folder) (path : String) : Except Fault Place :=
  if path = "" then .error .missing
  else if maxPath < path.utf8ByteSize then .error .tooLong
  else
    let start := if path.toList.head? = some '/' then .above else .inside []
    d.follow start (names [] path.toList)

/-- Whether a path ends in a slash, so that it has to lead to a folder. -/
def asksForFolder (path : String) : Bool := path.toList.getLast? = some '/'

def read (d : Folder) (path : String) : Except Fault String := do
  match ← d.place path with
  | .inside p =>
    match d.file? p with
    | some text => if asksForFolder path then .error .notAFolder else .ok text
    | none => .error (if d.isFolder p then .isAFolder else .missing)
  | .above => .error .isAFolder
  | .beyond => .error .missing

def isFile (d : Folder) (path : String) : Bool := (d.read path).isOk

/-- A path that asks for a folder can not be written to, even where it leads to
a file. -/
def write (d : Folder) (path text : String) : Except Fault Folder := do
  match ← d.place path with
  | .inside p =>
    if asksForFolder path || d.isFolder p then .error .isAFolder else .ok (d.put p text)
  | .above => .error .isAFolder
  | .beyond => if asksForFolder path then .error .isAFolder else .ok d

/-- A folder as the system the program runs on, on which no time passes:
`seconds` is what it reports. -/
def host (seconds : String) : Host (StateM Folder) where
  isFile path := return (← get).isFile path
  read path := return ((← get).read path).mapError Fault.message
  write path text := do
    match (← get).write path text with
    | .ok d =>
      set d
      return .ok ()
    | .error e => return .error e.message
  seconds := return seconds

end Folder

end Backsweep.Cli
