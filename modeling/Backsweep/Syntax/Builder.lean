import Backsweep.Syntax.Names

/-!
# Building functions

A function under construction: its variables, and the statements of the
blocks that are open.
-/

namespace Backsweep

structure Builder where
  name : String
  params : List Var := []
  locals : Locals := {}
  current : Block := []
  /-- The statements before the open blocks, innermost first. -/
  enclosing : List Block := []

namespace Builder

/-- Starts a function on the variable table of another one, so that statements
can be taken over unchanged. -/
def onVarsOf (name : String) (f : Func) : Builder := { name, locals := .ofFunc f }

def fresh (b : Builder) (base : String) : String × Builder :=
  let (name, locals) := b.locals.fresh base
  (name, { b with locals })

def declare (b : Builder) (base : String) (ty : Ty) (mutable : Bool) : Var × Builder :=
  let (v, locals) := b.locals.declare base ty mutable
  (v, { b with locals })

def param (b : Builder) (base : String) (ty : Ty) : Var × Builder :=
  let (v, b) := b.declare base ty false
  (v, { b with params := b.params ++ [v] })

def push (b : Builder) (s : Stmt) : Builder := { b with current := b.current ++ [s] }

/-- Declares a variable and defines it. -/
def define (b : Builder) (base : String) (ty : Ty) (mutable : Bool) (e : Expr) : Var × Builder :=
  let (v, b) := b.declare base ty mutable
  (v, b.push (.define v true e))

def assign (b : Builder) (dst : Var) (e : Expr) : Builder := b.push (.define dst false e)

def op (b : Builder) (base : String) (opcode : Opcode) (args : List Var) : Var × Builder :=
  b.define base opcode.result false (.op opcode args)

def openBlock (b : Builder) : Builder :=
  { b with current := [], enclosing := b.current :: b.enclosing }

/-- Ends the innermost open block. With none open, the statements so far are
taken as the block. -/
def closeBlock (b : Builder) : Block × Builder :=
  (b.current, { b with current := b.enclosing.headD [], enclosing := b.enclosing.tail })

def finish (b : Builder) (returns : List Ty) : Func :=
  { name := b.name, attrs := [], params := b.params, returns, vars := b.locals.vars,
    body := b.current }

end Builder

end Backsweep
