set_option autoImplicit false

/-!
# Binary32 numbers

A number of the IEEE binary32 format, kept as its 32 bits so that every pattern, NaN payloads
included, survives being stored and read back. Rounding, truncation, floor and remainder are exact
integer computations on the decoded significand; addition, multiplication, division, square root
and powers are those of the machine format.
-/
namespace Tickwise

structure Binary32 where
  bits : UInt32
  deriving DecidableEq, Inhabited

namespace Binary32

def zero : Binary32 := ⟨0⟩

def one : Binary32 := ⟨0x3F800000⟩

def infinity (negative : Bool) : Binary32 := ⟨if negative then 0xFF800000 else 0x7F800000⟩

def nan (negative : Bool) : Binary32 := ⟨if negative then 0xFFC00000 else 0x7FC00000⟩

def isNegative (x : Binary32) : Bool := x.bits.toNat ≥ 0x80000000

/-- The bits without the sign: magnitudes are ordered as these numbers are. -/
def magnitude (x : Binary32) : Nat := x.bits.toNat % 0x80000000

def isNaN (x : Binary32) : Bool := x.magnitude > 0x7F800000

def isInfinite (x : Binary32) : Bool := x.magnitude = 0x7F800000

def isZero (x : Binary32) : Bool := x.magnitude = 0

def exponentField (x : Binary32) : Nat := x.magnitude / 0x800000

/-- The integer `m` with `|x| = m * 2 ^ x.exponent`, for finite `x`. -/
def significand (x : Binary32) : Nat :=
  x.magnitude % 0x800000 + if x.exponentField = 0 then 0 else 0x800000

def exponent (x : Binary32) : Int := (max x.exponentField 1 : Nat) - 150

def ofMagnitude (negative : Bool) (magnitude : Nat) : Binary32 :=
  ⟨UInt32.ofNat (magnitude + if negative then 0x80000000 else 0)⟩

/-- The nearest number to `num / den`, ties to the even significand; beyond the largest finite
number it is an infinity. -/
def ofRatio (negative : Bool) (num den : Nat) : Binary32 :=
  if num = 0 then ofMagnitude negative 0
  else
    let guess : Int := (num.log2 : Int) - den.log2 - 24
    let scaled (e : Int) : Nat × Nat := (num <<< (-e).toNat, den <<< e.toNat)
    let fits (e : Int) : Bool := (scaled e).1 < (scaled e).2 <<< 24
    let e := max (-149) (if fits guess then guess else guess + 1)
    let (n, d) := scaled e
    let q := n / d
    let r := n % d
    let rounded := if 2 * r > d ∨ (2 * r = d ∧ q % 2 = 1) then q + 1 else q
    ofMagnitude negative (min 0x7F800000 ((e + 149).toNat * 0x800000 + rounded))

/-- The integer `±m * 2 ^ e`, or the nearest number to it. -/
def ofScaled (negative : Bool) (m : Nat) (e : Int) : Binary32 :=
  ofRatio negative (m <<< e.toNat) (1 <<< (-e).toNat)

def ofInt (i : Int) : Binary32 := ofRatio (i < 0) i.natAbs 1

def truncate (x : Binary32) : Int :=
  let n := (x.significand <<< x.exponent.toNat) >>> (-x.exponent).toNat
  if x.isNegative then -n else n

/-- Truncation clamped to the range of 32-bit integers; a NaN becomes 0. -/
def toInt32 (x : Binary32) : Int32 :=
  if x.isNaN then 0
  else if x.isInfinite then if x.isNegative then Int32.minValue else Int32.maxValue
  else Int32.ofInt (max (-0x80000000) (min 0x7FFFFFFF x.truncate))

def floor (x : Binary32) : Binary32 :=
  if x.isNaN then ⟨x.bits ||| 0x400000⟩
  else if x.isInfinite ∨ x.exponent ≥ 0 then x
  else
    let unit := 1 <<< (-x.exponent).toNat
    let q := x.significand / unit
    ofRatio x.isNegative (if x.isNegative ∧ x.significand % unit ≠ 0 then q + 1 else q) 1

def neg (x : Binary32) : Binary32 := ⟨x.bits ^^^ 0x80000000⟩

def abs (x : Binary32) : Binary32 := ⟨x.bits &&& 0x7FFFFFFF⟩

def toFloat32 (x : Binary32) : Float32 := Float32.ofBits x.bits

/-- A NaN result repeats the first operand that is a NaN, made quiet; an invalid operation on
numbers answers the negative quiet NaN. -/
def nanResult (a b : Binary32) : Binary32 :=
  if a.isNaN then ⟨a.bits ||| 0x400000⟩
  else if b.isNaN then ⟨b.bits ||| 0x400000⟩
  else nan true

def lift (f : Float32 → Float32 → Float32) (a b : Binary32) : Binary32 :=
  let r := f a.toFloat32 b.toFloat32
  if r.isNaN then nanResult a b else ⟨r.toBits⟩

def add : Binary32 → Binary32 → Binary32 := lift (· + ·)
def sub : Binary32 → Binary32 → Binary32 := lift (· - ·)
def mul : Binary32 → Binary32 → Binary32 := lift (· * ·)
def div : Binary32 → Binary32 → Binary32 := lift (· / ·)
def pow : Binary32 → Binary32 → Binary32 := lift Float32.pow
def sqrt (x : Binary32) : Binary32 := lift (fun y _ => y.sqrt) x x

/-- The remainder of division toward zero; it has the sign of the dividend. -/
def rem (a b : Binary32) : Binary32 :=
  if a.isNaN ∨ b.isNaN ∨ a.isInfinite ∨ b.isZero then nanResult a b
  else if b.isInfinite then a
  else
    let e := min a.exponent b.exponent
    let scaled (x : Binary32) := x.significand <<< (x.exponent - e).toNat
    ofScaled a.isNegative (scaled a % scaled b) e

def eq (a b : Binary32) : Bool := a.toFloat32 == b.toFloat32
def lt (a b : Binary32) : Bool := a.toFloat32 < b.toFloat32
def le (a b : Binary32) : Bool := a.toFloat32 ≤ b.toFloat32

end Binary32
end Tickwise
