import Tickwise.Limit
import Tickwise.Value.Convert
set_option autoImplicit false

/-!
# Operators on values

Binary operators treat both operands as one type, which the compiler chose. Integer arithmetic
wraps, and division by zero is a fault for integers and floats alike.
-/
namespace Tickwise

inductive BinaryOp where
  | add | sub | mul | div | rem | pow
  | bitAnd | bitOr | bitXor
  | shiftLeft | shiftRightLogical | shiftRight
  | eq | ne | lt | gt | le | ge
  deriving DecidableEq, Inhabited

inductive UnaryOp where
  | neg | not | complement
  deriving DecidableEq, Inhabited

namespace BinaryOp

def isComparison : BinaryOp → Bool
  | eq | ne | lt | gt | le | ge => true
  | _ => false

def isBitwise : BinaryOp → Bool
  | bitAnd | bitOr | bitXor | shiftLeft | shiftRightLogical | shiftRight => true
  | _ => false

def holds (op : BinaryOp) (equal less greater : Bool) : Bool :=
  match op with
  | eq => equal
  | ne => !equal
  | lt => less
  | gt => greater
  | le => less || equal
  | ge => greater || equal
  | _ => false

def onInts (op : BinaryOp) (a b : Int32) : Except Fault Int32 :=
  match op with
  | add => .ok (a + b)
  | sub => .ok (a - b)
  | mul => .ok (a * b)
  | div => if b = 0 then .error .divisionByZero else .ok (a / b)
  | rem => if b = 0 then .error .divisionByZero else .ok (a % b)
  | pow => .ok (Integer.power a b)
  | bitAnd => .ok (a &&& b)
  | bitOr => .ok (a ||| b)
  | bitXor => .ok (a ^^^ b)
  | shiftLeft => .ok (Integer.shiftLeft a b)
  | shiftRightLogical => .ok (Integer.shiftRightLogical a b)
  | _ => .ok (Integer.shiftRightArithmetic a b)

def onFloats (op : BinaryOp) (a b : Binary32) : Except Fault Binary32 :=
  match op with
  | add => .ok (a.add b)
  | sub => .ok (a.sub b)
  | mul => .ok (a.mul b)
  | div => if b.isZero then .error .divisionByZero else .ok (a.div b)
  | rem => if b.isZero then .error .divisionByZero else .ok (a.rem b)
  | pow => .ok (a.pow b)
  | _ => .ok Binary32.zero

def onBools (op : BinaryOp) (a b : Bool) : Bool :=
  match op with
  | bitAnd => a && b
  | bitOr => a || b
  | bitXor => a ^^ b
  | _ => op.holds (a == b) (!a && b) (a && !b)

def sameReference (a b : Value Ref) : Except Fault Bool :=
  match a, b with
  | .array r, .array s => .ok (r = s)
  | .object _ r, .object _ s => .ok (r = s)
  | .null, .null => .ok true
  | .unassigned, _ => .error .uninitialized
  | _, .unassigned => .error .uninitialized
  | _, _ => .ok false

end BinaryOp

namespace Heap

/-- Applies an operator to two operands that are both treated as `ty`. -/
def binary (h : Heap) (op : BinaryOp) (left right : Variable) (ty : Ty) :
    Except Fault Variable := do
  match ty with
  | .int =>
    let a ← left.toInt
    let b ← right.toInt
    if op.isComparison then return Slot.ofBool (op.holds (a = b) (a < b) (a > b))
    else return Slot.ofInt (← op.onInts a b)
  | .float =>
    let a ← left.toFloat
    let b ← right.toFloat
    if op.isComparison then return Slot.ofBool (op.holds (a.eq b) (a.lt b) (b.lt a))
    else return Slot.ofFloat (← op.onFloats a b)
  | .bool =>
    let a ← left.toBool
    let b ← right.toBool
    return Slot.ofBool (op.onBools a b)
  | .string =>
    let a ← h.toText left
    let b ← h.toText right
    if op = .add then
      if a.utf8ByteSize + b.utf8ByteSize > maxStringBytes then throw .stringTooLong
      else return Slot.ofString (a ++ b)
    else return Slot.ofBool (op.holds (a = b) (a < b) (b < a))
  | _ =>
    let same ← BinaryOp.sameReference left.value right.value
    return Slot.ofBool (if op = .ne then !same else same)

end Heap

namespace Slot

variable {ρ : Type}

def unary (op : UnaryOp) (s : Slot ρ) : Except Fault (Slot ρ) :=
  match op, s.ty with
  | .neg, .float => s.toFloat.map fun x => ofFloat x.neg
  | .neg, _ => s.toInt.map fun i => ofInt (-i)
  | .complement, _ => s.toInt.map fun i => ofInt (~~~i)
  | .not, _ => s.toBool.map fun b => ofBool (!b)

/-- Adds one to a number in place, or takes one away; the label is lost. -/
def step (up : Bool) (s : Slot ρ) : Except Fault (Slot ρ) :=
  match s.value with
  | .int i => .ok { s with value := .int (if up then i + 1 else i - 1), label := none }
  | .float x =>
    .ok { s with value := .float (if up then x.add Binary32.one else x.sub Binary32.one), label := none }
  | .null => .error .nullReference
  | _ => .error .uninitialized

end Slot
end Tickwise
