import Tickwise.Machine.Move
set_option autoImplicit false

/-!
# Execution

An instruction is executed turn by turn. Each turn makes the move for the position that the frame has,
so executing an instruction again goes on from where it was suspended.
-/
namespace Tickwise

namespace Machine

def reply (m : Machine) (f : NativeFn) (phase : CallPhase) : NativeReply :=
  f.handler ⟨m.own.operands, phase, Int32.ofInt m.own.index, m.heap, m.journal⟩

def record (m : Machine) (id : NativeId) (phase : CallPhase) (r : NativeReply) : Machine :=
  let invocation :=
    ⟨id, m.own.operands, m.heap, phase, Int32.ofInt m.own.index, r.state, r.outcome⟩
  { m.modifyFrame ({ · with index := r.state.toInt }) with
    heap := r.heap
    journal := ⟨invocation :: m.journal.invocations, r.reports.reverse ++ m.journal.reports⟩ }

end Machine

namespace Exec

def invoke (id : NativeId) (f : NativeFn) (phase : CallPhase) : Exec NativeOutcome := do
  let r := (← get).reply f phase
  modify (·.record id phase r)
  return r.outcome

/-- Why a native is invoked: state 1 starts it, 2 resumes it, or cancels it when the program is to
stop. -/
def callPhase (state : Nat) (stop : Bool) : CallPhase :=
  if state = 1 then .start else if stop then .cancel else .resume

/-- What follows the answer of a native. State 2 waits for the next tick. -/
def answered (span : Span) (ret : Ty) : NativeOutcome → Exec Variable
  | .done v => convert span v ret
  | .suspend => do
    setPosition 2 (← own).index
    throw .suspended
  | .fault code => faultAt span (.native code)
  | .crashed c => crash c

def callNative (span : Span) (id : NativeId) (f : NativeFn) (ret : Ty) : Exec Variable := do
  let phase := callPhase (← own).state (← get).stop
  let outcome ← invoke id f phase
  if phase = .cancel then faultAt span .stopped else answered span ret outcome

def bindParams (h : Heap) : List Parameter → List Variable → Except Fault (List Variable)
  | p :: ps, v :: vs => do
    let local_ ← h.assign ((Slot.fresh p.ty).declaredAs p.name p.var) v
    return local_ :: (← bindParams h ps vs)
  | _, _ => return []

def bindCrash? (h : Heap) : List Parameter → List Variable → Option Crash
  | p :: ps, v :: vs => (h.crash? p.ty v).or (if (h.convert v p.ty).isOk then bindCrash? h ps vs else none)
  | _, _ => none

def placeCallee (span : Span) (node : NodeId) (params : List Variable) : Exec Unit := fun m =>
  match m.placeCallee? node params with
  | some m => (.ok (), m)
  | none => faultAt span .notRestored m

/-- Makes the frame of a function body, with the values of the arguments. `room` is how deep frames
may still be nested. -/
def enterCallee (span : Span) (f : Function) (room : Nat) : Exec Unit := do
  let values ← operands
  setOperands []
  let params ← checkCrash span (bindCrash? · f.params values) (bindParams · f.params values)
  if room = 0 then faultAt span .stackOverflow
  else
    placeCallee span f.body.id params
    setPosition 2 0

/-- One turn of an instruction: its value, or none when there is more to do. `run` executes the
instructions one level deeper. -/
def turn (run : Instr → Exec Variable) (p : Program) (room : Nat) (i : Instr) :
    Exec (Option Variable) := do
  match i.move p (← own) with
  | .run child follow => follow (← outcomeOf (run child))
  | .pass span state index => goOn do
      spend span
      setPosition state index
  | .enter f => goOn (enterCallee i.span f room)
  | .invoke id f ret => finish (callNative i.span id f ret)
  | .act action => action

def turns (run : Instr → Exec Variable) (p : Program) (room : Nat) (i : Instr) :
    (fuel : Nat) → Exec Variable
  | 0 => throw .suspended
  | fuel + 1 => do
    match ← turn run p room i with
    | some v => return v
    | none => turns run p room i fuel

/-- More turns than an instruction makes between two steps. -/
def turnBound (i : Instr) : Nat := i.children.length + 8

/-- Executes an instruction in its frame. There is a step among so many turns, so they are never all
made. -/
def form (run : Instr → Exec Variable) (p : Program) (room : Nat) (i : Instr) : Exec Variable := do
  turns run p room i (turnBound i * ((← get).budget + 1))

/-- Executes an instruction. `room` is how deep frames may still be nested. -/
def exec (p : Program) : (room : Nat) → Instr → Exec Variable
  | 0, i => if i.isLeaf then settle (leaf i) else settle (faultAt i.span .stackOverflow)
  | room + 1, i =>
    if i.isLeaf then settle (leaf i)
    else inFrame i.id i.span (form (exec p room) p room i)

end Exec
end Tickwise
