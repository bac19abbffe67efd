set_option autoImplicit false

/-!
# Types

The static types of the language, which of them a slot accepts, and the layout of classes.
-/
namespace Tickwise

inductive Ty where
  | void
  | bool
  | int
  | float
  | string
  /-- The type of the literal `null`, which every reference type accepts. -/
  | null
  | array (elem : Ty)
  | named (cls : String)
  deriving DecidableEq, Inhabited

namespace Ty

/-- The number that stands for the outermost form of a type in saved state. -/
def tag : Ty → Nat
  | void => 0
  | bool => 1
  | int => 2
  | float => 3
  | string => 4
  | null => 5
  | array _ => 6
  | named _ => 7

def element? : Ty → Option Ty
  | array elem => some elem
  | _ => none

def className? : Ty → Option String
  | named cls => some cls
  | _ => none

def dimensions : Ty → Nat
  | array elem => elem.dimensions + 1
  | _ => 0

def isNumeric : Ty → Bool
  | int | float => true
  | _ => false

def isReference : Ty → Bool
  | array _ | named _ | null => true
  | _ => false

/-- May a value of type `src` be stored in a slot of type `dst`? An `int` widens to `float` and
`null` fits every reference; nothing narrows. -/
def accepts (dst src : Ty) : Bool :=
  dst = src || match dst, src with
    | float, int => true
    | array _, null => true
    | named _, null => true
    | _, _ => false

def compatible (a b : Ty) : Bool := a.accepts b || b.accepts a

def promote? : Ty → Ty → Option Ty
  | int, int => some int
  | float, int => some float
  | int, float => some float
  | float, float => some float
  | _, _ => none

def text : Ty → String
  | void => "void"
  | bool => "bool"
  | int => "int"
  | float => "float"
  | string => "string"
  | null => "null"
  | array elem => elem.text ++ "[]"
  | named cls => cls

def maxDimensions : Nat := 32

end Ty

structure Field where
  name : String
  ty : Ty
  deriving DecidableEq, Inhabited

/-- A class: its name and its fields in order. -/
structure ClassLayout where
  name : String
  fields : List Field
  deriving DecidableEq, Inhabited

def ClassLayout.fieldIndex? (c : ClassLayout) (name : String) : Option Nat :=
  c.fields.findIdx? (·.name = name)

end Tickwise
