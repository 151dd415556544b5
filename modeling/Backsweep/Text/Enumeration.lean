/-!
# Enumerations

Lists of candidates as they stand in messages: `a, b or c`.
-/

namespace Backsweep.Text

/-- How a list of items is joined. -/
structure Enumeration where
  separator : String := ", "
  /-- Stands between the last two items. -/
  final : String := " or "
  /-- Stands on both sides of every item. -/
  quote : String := ""

namespace Enumeration

/-- Quoted names joined by `and`. -/
def names : Enumeration := { final := " and ", quote := "`" }

/-- Sentences joined by `and`. -/
def clauses : Enumeration := { final := " and " }

def item (e : Enumeration) (s : String) : String := e.quote ++ s ++ e.quote

def write (e : Enumeration) : List String → String
  | [] => ""
  | [s] => e.item s
  | [s, t] => e.item s ++ e.final ++ e.item t
  | s :: rest => e.item s ++ e.separator ++ e.write rest

end Enumeration

end Backsweep.Text
