import Backsweep.Diff.Pullback

/-!
# Second derivatives

A pullback is a function like any other. With its upstream derivative fixed to
one it is the derivative of the function, and its own pullback the second one.
What it passes through its tapes is followed by the analysis.
-/

namespace Backsweep

/-- Turns the upstream parameter of a pullback into the constant `one`. -/
def Func.unbox (g : Func) (one : Float) : Func :=
  let name := g.name ++ ".unboxed"
  match g.params.getLast? with
  | some upstream =>
    { g with name, params := g.params.dropLast,
             body := .define upstream true (.const (.real one)) :: g.body }
  | none => { g with name }

/-- Generates `%<f>.second_order(params.., upstream)`, which returns the
derivative and the upstream derivative times the second derivative. -/
def Diff.secondOrder (c : Catalogue) (f : Func) (input : ActiveInput) : Diff Func := do
  let first ← reverse c f input false .derivative (f.name ++ ".reverse")
  let unboxed := first.unbox (← get).context.one
  emit (.unboxed f.name unboxed.name)
  reverse c unboxed input true .valueAndDerivative (f.name ++ ".second_order")

end Backsweep
