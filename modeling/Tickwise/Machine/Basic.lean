import Tickwise.Machine.Frame
import Tickwise.Native.Basic
import Tickwise.Value.Operator
set_option autoImplicit false

/-!
# The machine

What execution reads and changes, and the ways in which an instruction is left before it finishes.
Each instruction that has parts owns a frame while it executes. When it is suspended its frame stays
behind, and executing the instruction again continues from the position in it.
-/
namespace Tickwise

structure Machine where
  /-- The frames of the instructions that are executing, innermost first. -/
  frames : List (Frame Variable)
  /-- The frames beneath those, outermost first: of the instructions to be continued. -/
  deeper : List (Frame Variable)
  heap : Heap
  journal : Journal
  budget : Nat
  taken : Nat
  stop : Bool

/-- Why an instruction is left without a value. -/
inductive Interrupt where
  /-- The tick is over; the frames stay in place. -/
  | suspended
  | breakTo (label : Option String)
  | continueTo (label : Option String)
  | returned (value : Variable)
  | fault (error : RuntimeError)
  | crashed (crash : Crash)
  deriving DecidableEq, Inhabited

abbrev Exec := ExceptT Interrupt (StateM Machine)

namespace Machine

def allFrames (m : Machine) : List (Frame Variable) := m.deeper.reverse ++ m.frames

def findVar? (m : Machine) (id : VarId) : Option Variable := Frame.findVar? id m.allFrames

def setVar (m : Machine) (id : VarId) (v : Variable) : Machine :=
  let all := Frame.setVar id v m.allFrames
  { m with
    deeper := (all.take m.deeper.length).reverse
    frames := all.drop m.deeper.length }

/-- Declares a variable in the innermost scope around the frame of the declaration itself. -/
def declare (m : Machine) (v : Variable) : Machine :=
  { m with frames := m.frames.take 1 ++ Frame.declareVar v (m.frames.drop 1) }

def modifyFrame (m : Machine) (f : Frame Variable → Frame Variable) : Machine :=
  match m.frames with
  | [] => m
  | own :: frames => { m with frames := f own :: frames }

def own (m : Machine) : Frame Variable := m.frames.headD (Frame.start 0)

/-- The machine inside the frame of an instruction: the frame that it left behind, or a new one. There is
none if the frame left behind is not known to be one of the program. -/
def enter? (m : Machine) (node : NodeId) : Option Machine :=
  match m.deeper with
  | [] => some { m with frames := Frame.start node :: m.frames }
  | f :: deeper =>
    if f.node = node then
      if f.live then some { m with frames := f :: m.frames, deeper := deeper } else none
    else some { m with frames := Frame.start node :: m.frames, deeper := [] }

/-- The machine with the frame of a function body, and its parameters, beneath the others. There is none
if a frame left behind is not known to be one of the program. -/
def placeCallee? (m : Machine) (node : NodeId) (params : List Variable) : Option Machine :=
  match m.deeper with
  | [] => some { m with deeper := [Frame.ofCall node params] }
  | f :: deeper =>
    if f.node = node then
      if f.live then
        some { m with deeper := { f with call := true, scope := true, locals := params } :: deeper }
      else none
    else some { m with deeper := [Frame.ofCall node params] }

def suspend (m : Machine) : Machine :=
  { m with frames := m.frames.tail, deeper := m.own :: m.deeper }

def leave (m : Machine) : Machine := { m with frames := m.frames.tail, deeper := [] }

end Machine

namespace Exec

variable {α : Type}

def void : Exec Variable := return Slot.ofVoid

def faultAt (span : Span) (fault : Fault) : Exec α := throw (.fault ⟨fault, span⟩)

def crash (c : Crash) : Exec α := throw (.crashed c)

def finish (c : Exec Variable) : Exec (Option Variable) := do return some (← c)

def goOn (c : Exec Unit) : Exec (Option Variable) := do
  c
  return none

def outcomeOf (c : Exec α) : Exec (Except Interrupt α) := fun m => (.ok (c m).1, (c m).2)

/-- A computation on values, whose fault is raised at `span`. -/
def check (span : Span) : Except Fault α → Exec α
  | .ok a => return a
  | .error fault => faultAt span fault

def checkHeap (span : Span) (f : Heap → Except Fault α) : Exec α := do
  check span (f (← get).heap)

def checkCrash (span : Span) (crash? : Heap → Option Crash) (f : Heap → Except Fault α) : Exec α := do
  match crash? (← get).heap with
  | some c => crash c
  | none => checkHeap span f

def convert (span : Span) (v : Variable) (ty : Ty) : Exec Variable :=
  checkCrash span (·.crash? ty v) (·.convert v ty)

def checkStorage (span : Span) (f : Heap → Except Fault (α × Heap)) : Exec α := do
  let (a, heap) ← checkHeap span f
  modify ({ · with heap := heap })
  return a

def own : Exec (Frame Variable) := return (← get).own

def setPosition (state : Nat) (index : Int) : Exec Unit :=
  modify (·.modifyFrame ({ · with state := state, index := index }))

def nextIndex (state : Nat) : Exec Unit :=
  modify (·.modifyFrame fun f => { f with state := state, index := f.index + 1 })

def operands : Exec (List Variable) := return (← get).own.operands

def setOperands (vs : List Variable) : Exec Unit :=
  modify (·.modifyFrame ({ · with operands := vs }))

def pushOperand (v : Variable) : Exec Unit :=
  modify (·.modifyFrame fun f => { f with operands := f.operands ++ [v] })

def openScope : Exec Unit := modify (·.modifyFrame ({ · with scope := true }))

/-- Passes a statement or a loop turn: takes a step of the budget, or ends the tick when there is none
left. This is where a program notices that it is to stop. -/
def spend (span : Span) : Exec Unit := do
  let m ← get
  if m.stop then faultAt span .stopped
  else if m.budget = 0 then throw .suspended
  else set { m with budget := m.budget - 1, taken := m.taken + 1 }

/-- Runs an instruction to the end of its stay on the stack: unless it is suspended nothing of it is
left beneath the frames around it. -/
def settle (run : Exec α) : Exec α := fun m =>
  match run m with
  | (.error .suspended, m) => (.error .suspended, m)
  | (result, m) => (result, { m with deeper := [] })

/-- Leaves the innermost frame, which stays behind when its instruction is suspended. -/
def leaveFrame : Except Interrupt α × Machine → Except Interrupt α × Machine
  | (.error .suspended, m) => (.error .suspended, m.suspend)
  | (result, m) => (result, m.leave)

def inFrame (node : NodeId) (span : Span) (run : Exec α) : Exec α := fun m =>
  match m.enter? node with
  | some inside => leaveFrame (run inside)
  | none => settle (faultAt span .notRestored) m

end Exec
end Tickwise
