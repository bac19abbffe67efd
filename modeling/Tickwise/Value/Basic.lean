import Tickwise.Number.Binary32
import Tickwise.Ty
set_option autoImplicit false

/-!
# Values and slots

A slot is a typed place that holds a value: a variable, an operand, an array element or a field.
Values are generic in how the contents of arrays and objects are given. A `Variable` refers to
storage shared through the heap; a `Tree` has the contents written out in place.
-/
namespace Tickwise

abbrev VarId := Nat

inductive Value (ρ : Type) where
  | unassigned
  | void
  | bool (b : Bool)
  | int (i : Int32)
  | float (x : Binary32)
  | string (s : String)
  | null
  | array (elements : ρ)
  | object (cls : String) (fields : ρ)
  deriving DecidableEq, Inhabited

/-- A typed place and its value. `label` names the constant that an integer came from. -/
structure Slot (ρ : Type) where
  name : Option String
  id : VarId
  ty : Ty
  value : Value ρ
  label : Option String
  deriving DecidableEq, Inhabited

abbrev Ref := Nat

abbrev Variable := Slot Ref

/-- A slot with the contents of its arrays and objects written out. -/
inductive Tree where
  | mk (slot : Slot (List Tree))

def Tree.slot : Tree → Slot (List Tree)
  | .mk s => s

namespace Value

variable {ρ : Type}

def zero : Ty → Value ρ
  | .void => void
  | .bool => bool false
  | .int => int 0
  | .float => float Binary32.zero
  | .string => string ""
  | .null | .array _ | .named _ => null

/-- May a slot of this type hold this value? Every slot may be unassigned. -/
def fits : Value ρ → Ty → Bool
  | unassigned, _ => true
  | void, .void => true
  | bool _, .bool => true
  | int _, .int => true
  | float _, .float => true
  | string _, .string => true
  | null, ty => ty.isReference
  | array _, .array _ => true
  | object _ _, .named _ => true
  | _, _ => false

def isUnassigned : Value ρ → Bool
  | unassigned => true
  | _ => false

end Value

namespace Slot

variable {ρ : Type}

def temp (ty : Ty) (value : Value ρ) : Slot ρ := ⟨none, 0, ty, value, none⟩

/-- An unassigned slot; a void slot has nothing to assign. -/
def fresh (ty : Ty) : Slot ρ := temp ty (if ty = .void then .void else .unassigned)

def zeroed (ty : Ty) : Slot ρ := temp ty (Value.zero ty)

def ofVoid : Slot ρ := temp .void .void

def ofInt (i : Int32) : Slot ρ := temp .int (.int i)

def ofFloat (x : Binary32) : Slot ρ := temp .float (.float x)

def ofBool (b : Bool) : Slot ρ := temp .bool (.bool b)

def ofString (s : String) : Slot ρ := temp .string (.string s)

def ofNull (ty : Ty) : Slot ρ := temp ty .null

def declaredAs (s : Slot ρ) (name : String) (id : VarId) : Slot ρ :=
  { s with name := some name, id := id }

def isInit (s : Slot ρ) : Bool := !s.value.isUnassigned

/-- What reading a slot yields: its type, value and label without name and identity. -/
def toTemp (s : Slot ρ) : Slot ρ := { s with name := none, id := 0 }

/-- Takes over type, value and label of another slot, and its name and identity if asked to. -/
def copyFrom (dst src : Slot ρ) (named : Bool) : Slot ρ :=
  if named then src else { src with name := dst.name, id := dst.id }

end Slot
end Tickwise
