import Backsweep.Decimal.Shortest

/-!
# Real numbers as text

Writing reals with the fewest digits that read back, and reading decimals.
-/

namespace Backsweep

namespace Decimal

/-- How a decimal is laid out. -/
structure Layout where
  /-- Whether a whole number ends in `.0`. -/
  keepsPoint : Bool
  /-- Whether a number whose leading digit stands for `10 ^ e` is written
  without an exponent. -/
  positional : Int → Bool

/-- Constants and values keep `.0`, and are positional from `1e-4` up to, but
not including, `1e16`. -/
def Layout.literal : Layout := ⟨true, fun e => -4 ≤ e && e < 16⟩

/-- Messages never use an exponent and drop `.0`. -/
def Layout.plain : Layout := ⟨false, fun _ => true⟩

def zeros (n : Nat) : List Char := List.replicate n '0'

def positional (l : Layout) (d : Decimal) : List Char :=
  let n := d.digits.length
  if d.point ≤ 0 then
    '0' :: '.' :: zeros (-d.point).toNat ++ d.digits
  else if n ≤ d.point then
    d.digits ++ zeros (d.point - n).toNat ++ (if l.keepsPoint then ['.', '0'] else [])
  else
    d.digits.take d.point.toNat ++ '.' :: d.digits.drop d.point.toNat

def scientific (d : Decimal) : List Char :=
  let tail := match d.digits.drop 1 with
    | [] => []
    | ds => '.' :: ds
  d.digits.take 1 ++ tail ++ 'e' :: (toString (d.point - 1)).toList

def write (l : Layout) (d : Decimal) : List Char :=
  if l.positional (d.point - 1) then d.positional l else d.scientific

/-- A decimal numeral: digits around an optional point, and an exponent. At
least one digit stands before the exponent. -/
structure Numeral where
  whole : List Char
  fraction : List Char
  exponent : Int

def natOfDigits (ds : List Char) : Nat :=
  ds.foldl (fun n c => 10 * n + (c.toNat - '0'.toNat)) 0

/-- Splits off an optional sign. -/
def sign : List Char → Bool × List Char
  | '-' :: cs => (true, cs)
  | '+' :: cs => (false, cs)
  | cs => (false, cs)

def exponent? : List Char → Option Int
  | [] => some 0
  | c :: cs =>
    let (negative, ds) := sign cs
    if (c == 'e' || c == 'E') && !ds.isEmpty && ds.all Char.isDigit then
      let n : Int := natOfDigits ds
      some (if negative then -n else n)
    else none

def numeral? (cs : List Char) : Option Numeral :=
  let whole := cs.takeWhile Char.isDigit
  let (fraction, rest) := match cs.dropWhile Char.isDigit with
    | '.' :: ds => (ds.takeWhile Char.isDigit, ds.dropWhile Char.isDigit)
    | ds => ([], ds)
  if whole.isEmpty && fraction.isEmpty then none
  else (exponent? rest).map fun e => ⟨whole, fraction, e⟩

/-- The nearest real. Numbers beyond the range are cut off before the powers
of ten grow large. -/
def Numeral.toFloat (n : Numeral) : Float :=
  let significand := natOfDigits (n.whole ++ n.fraction)
  let e := n.exponent - n.fraction.length
  let magnitude := e + (Nat.toDigits 10 significand).length
  if significand == 0 || magnitude < -330 then 0.0
  else if 310 < magnitude then 1.0 / 0.0
  else Float.ofScientific significand (e < 0) e.natAbs

def lower (cs : List Char) : String := String.ofList (cs.map Char.toLower)

def unsigned? (cs : List Char) : Option Float :=
  match lower cs with
  | "inf" | "infinity" => some (1.0 / 0.0)
  | "nan" => some (0.0 / 0.0)
  | _ => (numeral? cs).map Numeral.toFloat

/-- Reads a decimal, an infinity or NaN, in any case and with an optional sign. -/
def read? (s : String) : Option Float :=
  let (negative, cs) := sign s.toList
  (unsigned? cs).map fun x => if negative then -x else x

end Decimal

namespace Real64

/-- The parts of a finite nonzero double: it is `m * 2 ^ q` up to its sign. -/
def interval (x : Float) : Decimal.Interval :=
  let bits := x.toBits.toNat
  let biased : Nat := (bits >>> 52) % (1 <<< 11)
  let fraction := bits % (1 <<< 52)
  if biased == 0 then .ofBinary fraction (-1074) false
  else .ofBinary ((1 <<< 52) + fraction) ((biased : Int) - 1075) (fraction == 0 && 1 < biased)

def isNegative (x : Float) : Bool := x.toBits.toNat >>> 63 == 1

def write (l : Decimal.Layout) (x : Float) : String :=
  if x.isNaN then "NaN"
  else
    let digits :=
      if x.isInf then "inf"
      else if x == 0.0 then (if l.keepsPoint then "0.0" else "0")
      else String.ofList ((Decimal.shortest (interval x)).write l)
    if isNegative x then "-" ++ digits else digits

/-- The text of a real in functions and values. -/
def literal (x : Float) : String := write .literal x

/-- The text of a real in messages. -/
def plain (x : Float) : String := write .plain x

end Real64

end Backsweep
