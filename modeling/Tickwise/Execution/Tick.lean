import Tickwise.Execution.Restore
set_option autoImplicit false

/-!
# Ticks

A tick runs an execution until it is over or the step budget of the tick is used up.
-/
namespace Tickwise

inductive Warning where
  | unhandledFault (error : RuntimeError)
  | stopped
  | notRestored (error : RestoreError)
  deriving DecidableEq, Inhabited

def Warning.message (w : Warning) (programId : String) : String :=
  match w with
  | unhandledFault e => "unhandled fault program=" ++ programId ++ " error=" ++ e.message
  | stopped => "stopped by host program=" ++ programId
  | notRestored e =>
    "failed to restore runtime stack program=" ++ programId ++ " error=" ++ e.message

structure TickResult where
  tick : Tick
  execution : Execution Variable
  session : Session
  warnings : List Warning
  steps : Nat
  /-- Why the process dies in the tick, if it does. The host gets no result then: what stands in its place
  means nothing. -/
  crash : Option Crash

namespace Program

def finish (x : Execution Variable) (s : Session) (value : Variable) : TickResult :=
  ⟨.finished value, x.finish value, s, [], 0, none⟩

def fail (x : Execution Variable) (s : Session) (warnings : List Warning) (error : RuntimeError) :
    TickResult :=
  let warning := if error.fault = .stopped then .stopped else .unhandledFault error
  ⟨.faulted error, x.fail error, s, warnings ++ [warning], 0, none⟩

def crash? (f : Function) (outcome : Except Interrupt Variable) (h : Heap) : Option Crash :=
  match outcome with
  | .error (.returned v) => h.crash? f.ret v
  | .error (.crashed c) => some c
  | _ => none

def verdict (f : Function) (outcome : Except Interrupt Variable) (h : Heap) : Tick :=
  match outcome with
  | .error .suspended => .suspended
  | .error (.returned v) =>
    match h.crash? f.ret v, h.convert v f.ret with
    | none, .ok value => .finished value
    | none, .error fault => .faulted ⟨fault, f.span⟩
    | some _, _ => .faulted ⟨.notRestored, f.span⟩
  | .error (.fault error) => .faulted error
  | .error (.crashed _) => .faulted ⟨.notRestored, f.span⟩
  | _ => if f.ret = .void then .finished Slot.ofVoid else .faulted ⟨.missingReturn, f.span⟩

/-- What becomes of an execution of `f` after its body was executed. -/
def conclude (f : Function) (x : Execution Variable) (outcome : Except Interrupt Variable)
    (m : Machine) : TickResult :=
  let s : Session := ⟨m.heap, m.journal⟩
  match verdict f outcome m.heap with
  | .suspended => ⟨.suspended, { x with status := .suspended, frames := m.deeper }, s, [], 0, none⟩
  | .finished value => finish x s value
  | .faulted error => fail x s [] error

def machine (p : Program) (x : Execution Variable) (s : Session) : Machine where
  frames := []
  deeper := x.frames
  heap := s.heap
  journal := s.journal
  budget := max p.env.limits.stepsPerTick 1
  taken := 0
  stop := x.stop

def advance (p : Program) (f : Function) (x : Execution Variable) (s : Session) : TickResult :=
  let (outcome, m) := Exec.exec p p.env.limits.maxFrames f.body (p.machine x s)
  { conclude f x outcome m with steps := m.taken, crash := crash? f outcome m.heap }

/-- What a tick executes, or its result when it executes nothing. An execution that was read back is
restored first; one that is over answers the same again. -/
def prepare (p : Program) (x : Execution Variable) (s : Session) :
    TickResult ⊕ Function × Execution Variable :=
  match x.status with
  | .finished => .inl ⟨.finished (x.result.getD Slot.ofVoid), x, s, [], 0, none⟩
  | .faulted => .inl ⟨.faulted (x.fault.getD ⟨.notRestored, Span.empty⟩), x, s, [], 0, none⟩
  | .ready | .suspended =>
    match p.function? x.entry with
    | none => .inl (fail x s [] ⟨.notRestored, Span.empty⟩)
    | some f =>
      if x.programId ≠ p.id then .inl (fail x s [] ⟨.notRestored, Span.empty⟩)
      else if x.isRestored then .inr (f, x)
      else
        match p.restore x with
        | (none, x) => .inr (f, x)
        | (some error, x) => .inl (fail x s [.notRestored error] ⟨.notRestored, f.span⟩)

def tick (p : Program) (x : Execution Variable) (s : Session) : TickResult :=
  match p.prepare x s with
  | .inl result => result
  | .inr (f, x) => p.advance f x s

/-- Ticks until the execution is over, at most `count` times. -/
def run (p : Program) : (count : Nat) → Execution Variable → Session → TickResult
  | 0, x, s => ⟨.suspended, x, s, [], 0, none⟩
  | count + 1, x, s =>
    let r := p.tick x s
    if r.tick.isFinal then r
    else
      let next := run p count r.execution r.session
      { next with warnings := r.warnings ++ next.warnings, steps := r.steps + next.steps }

end Program
end Tickwise
