import Tickwise.Instr.Basic
set_option autoImplicit false

/-!
# Frames

The position of one instruction that is executing, with its operands and the variables declared in
its scope, and the variables in sight of a list of frames.
-/
namespace Tickwise

/-- A frame whose variables are given as `ν`. -/
structure Frame (ν : Type) where
  node : NodeId
  state : Nat
  /-- A counter whose meaning depends on the state. -/
  index : Int
  operands : List ν
  locals : List ν
  /-- Declarations beneath the frame land in its locals. -/
  scope : Bool
  /-- The body of a called function: variables further out are not in sight. -/
  call : Bool
  /-- The position is known to be one of the program. -/
  live : Bool
  deriving DecidableEq, Inhabited

namespace Frame

def start (node : NodeId) : Frame Variable := ⟨node, 0, 0, [], [], false, false, true⟩

def ofCall (node : NodeId) (params : List Variable) : Frame Variable :=
  { start node with scope := true, call := true, locals := params }

def local? (f : Frame Variable) (id : VarId) : Option Variable := f.locals.reverse.find? (·.id = id)

def replaceFirst (p : Variable → Bool) (v : Variable) : List Variable → List Variable
  | [] => []
  | w :: ws => if p w then v :: ws else w :: replaceFirst p v ws

/-- Replaces the latest local of an identity. -/
def setLocal (f : Frame Variable) (id : VarId) (v : Variable) : Frame Variable :=
  { f with locals := (replaceFirst (·.id = id) v f.locals.reverse).reverse }

def declare (f : Frame Variable) (v : Variable) : Frame Variable :=
  { f with locals :=
      if f.locals.any (·.id = v.id) then replaceFirst (·.id = v.id) v f.locals
      else f.locals ++ [v] }

/-- The variable of an identity in the innermost frame that has one. The frame of a call ends the
search. Frames are innermost first here and below. -/
def findVar? (id : VarId) : List (Frame Variable) → Option Variable
  | [] => none
  | f :: frames =>
    match f.local? id with
    | some v => some v
    | none => if f.call then none else findVar? id frames

def setVar (id : VarId) (v : Variable) : List (Frame Variable) → List (Frame Variable)
  | [] => []
  | f :: frames =>
    if (f.local? id).isSome then f.setLocal id v :: frames
    else if f.call then f :: frames
    else f :: setVar id v frames

/-- Declares a variable in the innermost frame that is a scope. -/
def declareVar (v : Variable) : List (Frame Variable) → List (Frame Variable)
  | [] => []
  | f :: frames => if f.scope then f.declare v :: frames else f :: declareVar v frames

end Frame
end Tickwise
