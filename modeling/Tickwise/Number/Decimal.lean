import Tickwise.Number.Binary32
set_option autoImplicit false

/-!
# Decimal text of binary32 numbers

Writing uses the fewest digits that read back as the same number, the nearest such digits (a tie
goes up), without exponent or trailing point. Reading rounds the decimal to the nearest number.
-/
namespace Tickwise.Binary32

structure Decimal where
  digits : Nat
  exponent : Int
  deriving DecidableEq, Inhabited

def tenTo (n : Nat) : Nat := Nat.pow 10 n

/-- A positive number with the ends of the interval of reals that round to it, over one
denominator; the ends belong to it when `closed`. -/
structure Interval where
  low : Nat
  value : Nat
  high : Nat
  den : Nat
  closed : Bool

/-- The reals that round to a positive finite number. Just below a power of two the neighbours are
half as far apart. -/
def interval (x : Binary32) : Interval :=
  let m := 4 * x.significand
  let e := x.exponent - 2
  let below := if x.magnitude % 0x800000 = 0 ∧ x.exponentField > 1 then 1 else 2
  { low := (m - below) <<< e.toNat
    value := m <<< e.toNat
    high := (m + 2) <<< e.toNat
    den := 1 <<< (-e).toNat
    closed := x.significand % 2 = 0 }

def Interval.contains (i : Interval) (num den : Nat) : Bool :=
  let n := num * i.den
  if i.closed then i.low * den ≤ n ∧ n ≤ i.high * den else i.low * den < n ∧ n < i.high * den

def Interval.scale (i : Interval) : Nat → Int → Int
  | 0, start => start
  | fuel + 1, start =>
    if i.value * tenTo (-start).toNat < i.den * tenTo start.toNat then start
    else i.scale fuel (start + 1)

def Interval.onGrid? (i : Interval) (exponent : Int) : Option Decimal :=
  let p := tenTo exponent.toNat
  let q := tenTo (-exponent).toNat
  let below := i.value * q / (i.den * p)
  let remainder := i.value * q % (i.den * p)
  let down := i.contains (below * p) q
  let up := i.contains ((below + 1) * p) q
  if up ∧ (¬ down ∨ 2 * remainder ≥ i.den * p) then some ⟨below + 1, exponent⟩
  else if down then some ⟨below, exponent⟩
  else none

def Interval.coarsest (i : Interval) : Nat → Int → Decimal
  | 0, exponent => ⟨i.value * tenTo (-exponent).toNat / (i.den * tenTo exponent.toNat), exponent⟩
  | fuel + 1, exponent => (i.onGrid? exponent).getD (i.coarsest fuel (exponent - 1))

/-- The fewest digits that read back as `x`, for positive finite `x`. The coarsest grid may hold only
the power of ten above `x`; nine digits are always enough. -/
def shortest (x : Binary32) : Decimal :=
  let i := x.interval
  i.coarsest 10 (i.scale 90 (-46))

def Decimal.text (d : Decimal) : String :=
  let digits := (toString d.digits).toList
  let zeros (n : Nat) := List.replicate n '0'
  let point := (-d.exponent).toNat
  let chars :=
    if d.exponent ≥ 0 then digits ++ zeros d.exponent.toNat
    else if digits.length > point then
      digits.take (digits.length - point) ++ '.' :: digits.drop (digits.length - point)
    else '0' :: '.' :: zeros (point - digits.length) ++ digits
  String.ofList chars

def text (x : Binary32) : String :=
  if x.isNaN then "NaN"
  else
    (if x.isNegative then "-" else "") ++
      if x.isInfinite then "inf" else if x.isZero then "0" else x.abs.shortest.text

def digitsValue (cs : List Char) : Nat := cs.foldl (fun n c => 10 * n + (c.toNat - 48)) 0

/-- The decimal that a run of digits writes. Beyond 200 significant digits it matters only whether
all are zero, which one more digit tells: a point halfway between two numbers has at most 113. -/
def Decimal.ofDigits (cs : List Char) : Decimal :=
  let cs := cs.dropWhile (· = '0')
  match cs.drop 200 with
  | [] => ⟨digitsValue cs, 0⟩
  | rest =>
    let more := if rest.all (· = '0') then 0 else 1
    ⟨10 * digitsValue (cs.take 200) + more, rest.length - 1⟩

def ofDecimal (negative : Bool) (m : Nat) (e : Int) : Binary32 :=
  let size := (toString m).length + e
  if m = 0 ∨ size < -60 then ofMagnitude negative 0
  else if size > 60 then infinity negative
  else ofRatio negative (m * tenTo e.toNat) (tenTo (-e).toNat)

/-- The number in an exponent. A digit counts only while the number before it is below `0x10000`, so
no exponent exceeds `0x9ffff`. -/
def exponentValue (cs : List Char) : Nat :=
  cs.foldl (fun n c => if n < 0x10000 then 10 * n + (c.toNat - 48) else n) 0

def exponentPart? : List Char → Option Int
  | [] => some 0
  | c :: rest =>
    if c = 'e' ∨ c = 'E' then
      let (sign, digits) : Int × List Char := match rest with
        | '-' :: ds => (-1, ds)
        | '+' :: ds => (1, ds)
        | ds => (1, ds)
      if digits ≠ [] ∧ digits.all Char.isDigit then some (sign * exponentValue digits) else none
    else none

def decimal? (negative : Bool) (cs : List Char) : Option Binary32 :=
  let (whole, rest) := cs.span Char.isDigit
  let (fraction, rest) := match rest with
    | '.' :: more => more.span Char.isDigit
    | more => ([], more)
  if whole = [] ∧ fraction = [] then none
  else (exponentPart? rest).map fun e =>
    let d := Decimal.ofDigits (whole ++ fraction)
    ofDecimal negative d.digits (d.exponent + e - fraction.length)

def named? (negative : Bool) (cs : List Char) : Option Binary32 :=
  let name := String.ofList (cs.map Char.toLower)
  if name = "inf" ∨ name = "infinity" then some (infinity negative)
  else if name = "nan" then some (nan negative)
  else none

def ofText? (s : String) : Option Binary32 :=
  let unsigned (negative : Bool) (cs : List Char) := (decimal? negative cs).or (named? negative cs)
  match s.toList with
  | '-' :: cs => unsigned true cs
  | '+' :: cs => unsigned false cs
  | cs => unsigned false cs

end Tickwise.Binary32
