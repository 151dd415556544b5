import Backsweep.Text.Upper

/-!
# Camel case

`soft_plus` becomes `SoftPlus`.
-/

namespace Backsweep.Text

/-- Drops underscores and raises the character after each run of them; `raise`
says whether one was just dropped. -/
def camelFrom (raise : Bool) : List Char → List Char
  | [] => []
  | c :: cs =>
    if c == '_' then camelFrom true cs
    else if raise then upper c ++ camelFrom false cs
    else c :: camelFrom false cs

def camelCase (s : String) : String := String.ofList (camelFrom true s.toList)

end Backsweep.Text
