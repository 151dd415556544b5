/-!
# Shortest decimals

The decimal with the fewest digits that still reads back as a given
double-precision number. All arithmetic is exact: a binary fraction and the
ends of the interval that rounds to it are integers in a common power of ten.
-/

namespace Backsweep

/-- A decimal `0.d₁d₂… · 10 ^ point`. -/
structure Decimal where
  digits : List Char
  point : Int

namespace Decimal

/-- The integers `lower ≤ value ≤ upper` in units of `10 ^ unit`: a number and
the ends of the interval that rounds to it. `closed` says whether the ends do. -/
structure Interval where
  lower : Nat
  value : Nat
  upper : Nat
  closed : Bool
  unit : Int

namespace Interval

def contains (i : Interval) (n : Nat) : Bool :=
  if i.closed then i.lower ≤ n && n ≤ i.upper else i.lower < n && n < i.upper

/-- The multiple of `10 ^ cut` next to the value that lies in the interval, as
a multiplier. Of two the nearer is taken, and the upper one if both are as near. -/
def candidate? (i : Interval) (cut : Nat) : Option Nat :=
  let grid := Nat.pow 10 cut
  let d := i.value / grid
  let below := d * grid
  let above := below + grid
  match i.contains below, i.contains above with
  | true, true => some (if i.value - below < above - i.value then d else d + 1)
  | true, false => some d
  | false, true => some (d + 1)
  | false, false => none

/-- The coarsest grid with a candidate. Dropping no digit always has one. -/
def coarsest (i : Interval) : Nat → Nat × Nat
  | 0 => (i.value, 0)
  | cut + 1 =>
    match i.candidate? (cut + 1) with
    | some d => (d, cut + 1)
    | none => i.coarsest cut

/-- `m * 2 ^ q`. The gap below is half as wide as the gap above if `narrow`. -/
def ofBinary (m : Nat) (q : Int) (narrow : Bool) : Interval :=
  let scale := if q < 2 then Nat.pow 5 (2 - q).toNat else Nat.pow 2 (q - 2).toNat
  { lower := (4 * m - if narrow then 1 else 2) * scale
    value := 4 * m * scale
    upper := (4 * m + 2) * scale
    closed := m % 2 == 0
    unit := min (q - 2) 0 }

end Interval

def dropTrailingZeros (ds : List Char) : List Char :=
  (ds.reverse.dropWhile (· == '0')).reverse

/-- The shortest decimal in an interval. -/
def shortest (i : Interval) : Decimal :=
  let (d, cut) := i.coarsest ((Nat.toDigits 10 i.value).length)
  let ds := Nat.toDigits 10 d
  { digits := dropTrailingZeros ds, point := ds.length + cut + i.unit }

end Decimal

end Backsweep
