import Tickwise.Fault
import Tickwise.Number.Integer
import Tickwise.Text.Blank
import Tickwise.Value.Text
set_option autoImplicit false

/-!
# Conversions and assignment

Reading a slot as a number, a truth value, text or storage, and storing one slot into another, which
converts to the type of the destination.
-/
namespace Tickwise

namespace Slot

variable {ρ : Type}

def toInt (s : Slot ρ) : Except Fault Int32 :=
  match s.value with
  | .int i => .ok i
  | .float x => .ok x.toInt32
  | .bool b => .ok (if b then 1 else 0)
  | .string t => .ok ((Integer.ofText? (Text.trim t)).getD 0)
  | .null => .error .nullReference
  | _ => .error .uninitialized

def toFloat (s : Slot ρ) : Except Fault Binary32 :=
  match s.value with
  | .int i => .ok (Binary32.ofInt i.toInt)
  | .float x => .ok x
  | .bool b => .ok (if b then Binary32.one else Binary32.zero)
  | .string t => .ok ((Binary32.ofText? (Text.trim t)).getD Binary32.zero)
  | .null => .error .nullReference
  | _ => .error .uninitialized

def toBool (s : Slot ρ) : Except Fault Bool :=
  match s.value with
  | .bool b => .ok b
  | .int i => .ok (i ≠ 0)
  | .float x => .ok (!x.isZero)
  | .null => .ok false
  | .array _ | .object _ _ => .ok true
  | _ => .error .uninitialized

def toArray (s : Slot ρ) : Except Fault ρ :=
  match s.value with
  | .array r => .ok r
  | .unassigned => .error .uninitialized
  | _ => .error .nullReference

def toObject (s : Slot ρ) : Except Fault (String × ρ) :=
  match s.value with
  | .object cls r => .ok (cls, r)
  | .unassigned => .error .uninitialized
  | _ => .error .nullReference

end Slot

namespace Heap

def toText (h : Heap) (v : Variable) : Except Fault String :=
  match v.value with
  | .unassigned => .error .uninitialized
  | .string s => .ok s
  | _ => .ok (h.text v)

/-- The value of `src` as a slot of the given type holds it. References stay shared. -/
def convertValue (h : Heap) (ty : Ty) (src : Variable) : Except Fault (Value Ref) :=
  match ty with
  | .void => .ok .void
  | .int => src.toInt.map .int
  | .float => src.toFloat.map .float
  | .bool => src.toBool.map .bool
  | .string => (h.toText src).map .string
  | .null | .array _ | .named _ =>
    match src.value with
    | .unassigned => .error .uninitialized
    | .array r => .ok (.array r)
    | .object cls r => .ok (.object cls r)
    | _ => .ok .null

/-- Stores the value of `src` in `dst`. Only an integer keeps the label of the constant that it
came from. -/
def assign (h : Heap) (dst src : Variable) : Except Fault Variable :=
  (h.convertValue dst.ty src).map fun value =>
    { dst with value := value, label := if dst.ty = .int then src.label else none }

def convert (h : Heap) (src : Variable) (ty : Ty) : Except Fault Variable :=
  h.assign (Slot.fresh ty) src

end Heap
end Tickwise
