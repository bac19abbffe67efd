import Tickwise.Fault
import Tickwise.Value.Heap
set_option autoImplicit false

/-!
# Native functions

Functions that the host provides. A call may take several ticks: the handler is invoked once to
start, again each tick while it asks to be, and once more to cancel if the host stops the program
meanwhile.
-/
namespace Tickwise

abbrev NativeId := Nat

inductive ParamType where
  /-- This type, or one that widens to it. -/
  | exact (ty : Ty)
  | anyArray
  | any
  deriving DecidableEq, Inhabited

namespace ParamType

/-- How well an argument fits: 0 exactly, 1 through widening, `none` not at all. -/
def cost? (p : ParamType) (arg : Ty) : Option Nat :=
  match p with
  | exact ty => if ty = arg then some 0 else if ty.accepts arg then some 1 else none
  | anyArray => match arg with
    | .array _ | .null => some 1
    | _ => none
  | any => if arg = .void then none else some 1

def target? : ParamType → Option Ty
  | exact ty => some ty
  | _ => none

def text : ParamType → String
  | exact ty => ty.text
  | anyArray => "any[]"
  | any => "any"

end ParamType

inductive CallPhase where
  | start
  | resume
  | cancel
  deriving DecidableEq, Inhabited

inductive NativeOutcome where
  | done (value : Variable)
  /-- Not finished; invoke again on the next tick. -/
  | suspend
  | fault (code : Int32)
  /-- The handler does not return. One that is cancelled does. -/
  | crashed (crash : Crash)
  deriving DecidableEq, Inhabited

inductive Report where
  | printed (line : String)
  | logged (line : String)
  /-- A note of a native on its own invocations. -/
  | noted (line : String)
  deriving DecidableEq, Inhabited

/-- One invocation of a handler, with the call state before and after, and the storage that its
arguments referred to. -/
structure Invocation where
  native : NativeId
  args : List Variable
  heap : Heap
  phase : CallPhase
  before : Int32
  after : Int32
  outcome : NativeOutcome
  deriving DecidableEq, Inhabited

structure Journal where
  invocations : List Invocation
  reports : List Report
  deriving DecidableEq, Inhabited

def Journal.empty : Journal := ⟨[], []⟩

/-- What a handler sees: arguments converted to the parameter types, and a state of its own that is
kept between the invocations of one call. -/
structure NativeCall where
  args : List Variable
  phase : CallPhase
  state : Int32
  heap : Heap
  journal : Journal

structure NativeReply where
  outcome : NativeOutcome
  state : Int32
  heap : Heap
  reports : List Report

structure NativeFn where
  name : String
  params : List ParamType
  ret : Ty
  handler : NativeCall → NativeReply

def NativeFn.text (f : NativeFn) : String :=
  f.name ++ "(" ++ String.intercalate ", " (f.params.map ParamType.text) ++ ") -> " ++ f.ret.text

/-- The natives of a host; the position of one is its identity. -/
structure NativeRegistry where
  natives : List NativeFn

namespace NativeRegistry

def maxNatives : Nat := 65535

def empty : NativeRegistry := ⟨[]⟩

def register? (r : NativeRegistry) (f : NativeFn) : Option NativeRegistry :=
  if r.natives.length ≥ maxNatives ∨ r.natives.any (fun g => g.name = f.name ∧ g.params = f.params)
  then none
  else some ⟨r.natives ++ [f]⟩

def get? (r : NativeRegistry) (id : NativeId) : Option NativeFn := r.natives[id]?

def overloads (r : NativeRegistry) (name : String) : List (NativeId × NativeFn) :=
  (r.natives.zipIdx.filter fun (f, _) => f.name = name).map fun (f, id) => (id, f)

end NativeRegistry
end Tickwise
