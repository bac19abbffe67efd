import Tickwise.Fault
import Tickwise.Number.Decimal
import Tickwise.Value.Heap
set_option autoImplicit false

/-!
# Text of values

Arrays are written in braces and objects with their fields; an object inside another one is only
named, which keeps objects that reach themselves finite.
-/
namespace Tickwise

def Value.scalarText? {ρ : Type} : Value ρ → Option String
  | .unassigned => some "undefined"
  | .void => some "void"
  | .bool b => some (if b then "true" else "false")
  | .int i => some (toString i.toInt)
  | .float x => some x.text
  | .string s => some s
  | .null => some "null"
  | .array _ | .object _ _ => none

namespace Heap

/-- Writes a slot, following at most `fuel` references one inside another; none if that is not
enough. -/
def render (h : Heap) : (fuel : Nat) → (insideObject : Bool) → Variable → Option String
  | 0, _, v => v.value.scalarText?
  | fuel + 1, insideObject, v =>
    match v.value with
    | .array r => do
      let parts ← (h.elements r).toList.mapM (h.render fuel insideObject)
      return "\x7b" ++ String.intercalate ", " parts ++ "\x7d"
    | .object cls r =>
      if insideObject then some (cls ++ "(..)")
      else do
        let parts ← (h.elements r).toList.mapM fun field => do
          return field.name.getD "?" ++ "=" ++ (← h.render fuel true field)
        return cls ++ "(" ++ String.intercalate ", " parts ++ ")"
    | value => value.scalarText?

/-- References enough for every slot that has a text at all: a path through more passes the same
storage twice, both times outside of an object or both times inside of one. -/
def textFuel (h : Heap) : Nat := 2 * h.size + 1

/-- The text of a slot. There is none if an array reaches itself: writing it does not end. -/
def text? (h : Heap) (v : Variable) : Option String := h.render h.textFuel false v

def text (h : Heap) (v : Variable) : String := (h.text? v).getD ""

def crash? (h : Heap) (ty : Ty) (v : Variable) : Option Crash :=
  if ty = .string ∧ h.text? v = none then some .overflow else none

end Heap
end Tickwise
