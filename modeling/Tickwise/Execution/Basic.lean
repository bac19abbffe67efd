import Tickwise.Machine.Exec
set_option autoImplicit false

/-!
# Executions

One run of a function, from its start to its result, tick by tick. Between ticks it is plain data; the
heap and the journal of natives belong to the host's session and are passed to each tick.
-/
namespace Tickwise

inductive Status where
  | ready
  | suspended
  | finished
  | faulted
  deriving DecidableEq, Inhabited

structure Execution (ν : Type) where
  programId : String
  entry : FunctionId
  status : Status
  /-- Outermost first; none when the execution is over. -/
  frames : List (Frame ν)
  result : Option ν
  fault : Option RuntimeError
  stop : Bool
  deriving DecidableEq, Inhabited

inductive Tick where
  | finished (value : Variable)
  | suspended
  | faulted (error : RuntimeError)
  deriving DecidableEq, Inhabited

def Tick.isFinal : Tick → Bool
  | suspended => false
  | _ => true

/-- The storage and the journal that executions of one host share. -/
structure Session where
  heap : Heap
  journal : Journal

def Session.empty : Session := ⟨.empty, .empty⟩

namespace Execution

def begin (programId : String) (entry : FunctionId) (f : Function) (params : List Variable) :
    Execution Variable :=
  ⟨programId, entry, .ready, [Frame.ofCall f.body.id params], none, none, false⟩

def isRestored {ν : Type} (x : Execution ν) : Bool := x.frames.all Frame.live

/-- Asks for a stop at the next step. A native that is suspended then is invoked once more, to
cancel. -/
def requestStop {ν : Type} (x : Execution ν) : Execution ν := { x with stop := true }

def finish (x : Execution Variable) (value : Variable) : Execution Variable :=
  { x with status := .finished, frames := [], result := some value }

def fail (x : Execution Variable) (error : RuntimeError) : Execution Variable :=
  { x with status := .faulted, frames := [], fault := some error }

end Execution

namespace Program

/-- Starts a function by its position, if it takes these arguments. There is nothing to go on with if
the process dies of them. -/
def startFunction? (p : Program) (id : FunctionId) (args : List Variable) (h : Heap) :
    Option (Execution Variable) := do
  let f ← p.function? id
  if f.params.length = args.length ∧ Exec.bindCrash? h f.params args = none then
    let params ← (Exec.bindParams h f.params args).toOption
    return Execution.begin p.id id f params
  else none

def start? (p : Program) (name : String) (args : List Variable) (h : Heap) :
    Option (Execution Variable) :=
  p.functions.findSome? fun f => if f.name = name then p.startFunction? f.id args h else none

end Program
end Tickwise
