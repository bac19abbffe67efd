import Tickwise.Instr.Basic
import Tickwise.Native.Basic
set_option autoImplicit false

/-!
# Overload resolution

A call names a function and has argument types. The candidates are the functions of the unit and
the natives of that name; the one of least cost is called if it is the only one.
-/
namespace Tickwise

structure Signature where
  id : FunctionId
  name : String
  params : List Ty
  ret : Ty
  deriving DecidableEq, Inhabited

structure Candidate where
  callee : Callee
  params : List ParamType
  ret : Ty
  deriving DecidableEq, Inhabited

/-- The callee of a call, and for each argument the type that it is converted to. -/
structure Resolved where
  callee : Callee
  ret : Ty
  conversions : List (Option Ty)
  deriving DecidableEq, Inhabited

inductive Resolution where
  | resolved (r : Resolved)
  | ambiguous
  | noneFits
  | unknownName
  deriving DecidableEq, Inhabited

namespace Candidate

def ofSignature (s : Signature) : Candidate := ⟨.user s.id, s.params.map .exact, s.ret⟩

def ofNative (id : NativeId) (f : NativeFn) : Candidate := ⟨.native id, f.params, f.ret⟩

/-- The sum of the costs of the arguments, if there are as many as parameters and all fit. -/
def cost? (c : Candidate) (args : List Ty) : Option Nat :=
  if c.params.length ≠ args.length then none
  else (List.zipWith ParamType.cost? c.params args).foldl
    (fun total? cost? => total?.bind fun total => cost?.map (total + ·)) (some 0)

def resolved (c : Candidate) : Resolved := ⟨c.callee, c.ret, c.params.map ParamType.target?⟩

end Candidate

structure Best where
  candidate : Candidate
  cost : Nat
  tied : Bool

def Best.offer (args : List Ty) (best : Option Best) (c : Candidate) : Option Best :=
  match c.cost? args, best with
  | none, _ => best
  | some cost, none => some ⟨c, cost, false⟩
  | some cost, some b =>
    if b.cost < cost then best
    else if b.cost = cost then some { b with tied := true }
    else some ⟨c, cost, false⟩

def resolve (candidates : List Candidate) (args : List Ty) : Resolution :=
  match candidates.foldl (Best.offer args) none with
  | some b => if b.tied then .ambiguous else .resolved b.candidate.resolved
  | none => if candidates = [] then .unknownName else .noneFits

end Tickwise
