import Backsweep.Syntax.Func

/-!
# Names

Keywords, and the supply of variables with names of their own.
-/

namespace Backsweep

/-- Words that no variable may be called. -/
def keywords : List String :=
  ["let", "mut", "if", "else", "while", "do", "store", "push", "pop", "unreachable", "return",
    "function", "true", "false"]

def isKeyword (s : String) : Bool := keywords.contains s

def numbered (base : String) (n : Nat) : String := base ++ "_" ++ toString n

/-- The first `m ≥ n` for which `base_m` is not used, looking at `k` numbers. -/
def firstFree (used : List String) (base : String) : Nat → Nat → Nat
  | 0, n => n
  | k + 1, n => if used.contains (numbered base n) then firstFree used base k (n + 1) else n

/-- A variable table that grows, with the names handed out so far. -/
structure Locals where
  vars : Array VarInfo := #[]
  used : List String := []
  /-- For some bases that can not be names themselves, a number such that all
  numbered names below it are used. -/
  tried : List (String × Nat) := []

namespace Locals

/-- The table of a function, all of whose names are used. -/
def ofFunc (f : Func) : Locals := { vars := f.vars, used := f.vars.toList.map (·.name) }

/-- Replaces what is known about a base. -/
def setTried (base : String) (n : Nat) : List (String × Nat) → List (String × Nat)
  | [] => [(base, n)]
  | (b, m) :: rest => if b = base then (base, n) :: rest else (b, m) :: setTried base n rest

/-- Takes the first free name among `base_n, base_(n+1), …`. One of as many
numbers as there are names is free. -/
def takeNumbered (l : Locals) (base : String) (n : Nat) : String × Locals :=
  let m := firstFree l.used base l.used.length n
  let name := numbered base m
  (name, { l with used := name :: l.used, tried := setTried base (m + 1) l.tried })

/-- A new name: `base` itself if it can be one, otherwise `base_n` for the least
`n ≥ 1` that is not used. -/
def fresh (l : Locals) (base : String) : String × Locals :=
  match l.tried.lookup base with
  | some n => l.takeNumbered base n
  | none =>
    if isKeyword base || l.used.contains base then l.takeNumbered base 1
    else (base, { l with used := base :: l.used })

/-- Adds a variable named after `base`. -/
def declare (l : Locals) (base : String) (ty : Ty) (mutable : Bool) : Var × Locals :=
  let (name, l) := l.fresh base
  (⟨l.vars.size⟩, { l with vars := l.vars.push ⟨name, ty, mutable⟩ })

end Locals

end Backsweep
