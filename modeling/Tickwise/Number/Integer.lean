import Tickwise.Number.Decimal
set_option autoImplicit false

/-!
# 32-bit integers

Readers of integer text and the operators on `Int32` that core does not name. Arithmetic wraps;
shift amounts count modulo 32.
-/
namespace Tickwise.Integer

def hexDigit? (c : Char) : Option Nat :=
  if '0' ≤ c ∧ c ≤ '9' then some (c.toNat - 48)
  else if 'a' ≤ c ∧ c ≤ 'f' then some (c.toNat - 87)
  else if 'A' ≤ c ∧ c ≤ 'F' then some (c.toNat - 55)
  else none

def digit? (c : Char) : Option Nat := if c.isDigit then some (c.toNat - 48) else none

def natural? (base limit : Nat) (digit? : Char → Option Nat) (cs : List Char) : Option Nat :=
  if cs = [] then none
  else cs.foldlM (fun n c => (digit? c).bind fun d =>
    if base * n + d < limit then some (base * n + d) else none) 0

def signed? (limit : Nat) : List Char → Option Int
  | '-' :: cs => (natural? 10 limit digit? cs).map fun n => -(n : Int)
  | '+' :: cs => (natural? 10 limit digit? cs).map fun n => (n : Int)
  | cs => (natural? 10 limit digit? cs).map fun n => (n : Int)

/-- Reads a whole text as a 32-bit integer. -/
def ofText? (s : String) : Option Int32 :=
  (signed? 0x80000001 s.toList).bind fun i =>
    if i < 0x80000000 then some (Int32.ofInt i) else none

/-- The value of an integer literal: hexadecimal after `0x`, else decimal. Values up to the unsigned
range wrap, so that every bit pattern can be written. -/
def ofLiteral? (s : String) : Option Int32 :=
  let hexadecimal? (cs : List Char) : Option Int32 :=
    (natural? 16 0x100000000 hexDigit? cs).map Int32.ofNat
  match s.toList with
  | '0' :: 'x' :: '+' :: cs | '0' :: 'X' :: '+' :: cs => hexadecimal? cs
  | '0' :: 'x' :: cs | '0' :: 'X' :: cs => hexadecimal? cs
  | cs => (signed? 0x8000000000000001 cs).bind fun i =>
    if i < 0x100000000 then some (Int32.ofInt i) else none

def saturate (i : Int) : Int32 := Int32.ofInt (max (-0x80000000) (min 0x7FFFFFFF i))

/-- Powers are clamped to the 32-bit range. A negative exponent divides and drops the fraction;
zero to a negative power counts as larger than every integer. -/
def power (a b : Int32) : Int32 :=
  let (x, n) := (a.toInt, b.toInt)
  if n ≥ 0 then
    -- beyond 31 factors only the sign of the clamped power depends on their number
    saturate (Int.pow x (if n.toNat ≤ 32 then n.toNat else 32 + n.toNat % 2))
  else if x = 0 then Int32.maxValue
  else if x = 1 then 1
  else if x = -1 then if n % 2 = 0 then 1 else -1
  else 0

def shiftLeft (a b : Int32) : Int32 := (a.toUInt32 <<< (b.toUInt32 % 32)).toInt32

def shiftRightLogical (a b : Int32) : Int32 := (a.toUInt32 >>> (b.toUInt32 % 32)).toInt32

def shiftRightArithmetic (a b : Int32) : Int32 := a >>> (b &&& 31)

end Tickwise.Integer
