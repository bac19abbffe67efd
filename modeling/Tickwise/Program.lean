import Tickwise.Environment
import Tickwise.Instr.Basic
set_option autoImplicit false

/-!
# Programs

A compiled unit together with the environment that it was compiled for.
-/
namespace Tickwise

structure Parameter where
  name : String
  ty : Ty
  var : VarId
  deriving DecidableEq, Inhabited

structure Function where
  id : FunctionId
  name : String
  params : List Parameter
  ret : Ty
  body : Instr
  /-- Marked `extern`, and so listed as an entry point. -/
  isExtern : Bool
  span : Span
  deriving Inhabited

structure Program where
  id : String
  /-- In the order of the source; the position of one is its identity. -/
  functions : List Function
  classes : List ClassLayout
  /-- Identities of instructions are below this. -/
  nodeCount : Nat
  env : Environment

namespace Program

def function? (p : Program) (id : FunctionId) : Option Function := p.functions[id]?

def findFunction? (p : Program) (name : String) : Option Function :=
  p.functions.find? (·.name = name)

def entryPoints (p : Program) : List Function := p.functions.filter Function.isExtern

end Program
end Tickwise
