import Tickwise.Native.Basic
set_option autoImplicit false

/-!
# The protocol of native calls

A native is started once for each call, resumed for as long as it asks to be, and cancelled at most once,
which ends the run. Invocations are latest first here.
-/
namespace Tickwise

/-- A call whose native asked to be invoked again, and what the next invocation is to see. -/
structure PendingCall where
  native : NativeId
  args : List Variable
  state : Int32

/-- Where an execution stands between two invocations. -/
inductive Calling where
  | idle
  | pending (call : PendingCall)
  /-- A native was cancelled; none is invoked any more. -/
  | over

def Invocation.leadsTo (e : Invocation) : Calling :=
  if e.outcome = .suspend then .pending ⟨e.native, e.args, e.after⟩ else .idle

namespace Calling

/-- The protocol admits an invocation. `stop` says whether the host has asked for a stop. -/
inductive Admits (stop : Bool) : Calling → Invocation → Calling → Prop
  | start {e : Invocation} (phase : e.phase = .start) (state : e.before = 0) :
      Admits stop .idle e e.leadsTo
  | resume {e : Invocation} (going : stop = false) (phase : e.phase = .resume) :
      Admits stop (.pending ⟨e.native, e.args, e.before⟩) e e.leadsTo
  | cancel {e : Invocation} (stopped : stop = true) (phase : e.phase = .cancel) :
      Admits stop (.pending ⟨e.native, e.args, e.before⟩) e .over

inductive Serves (stop : Bool) (c : Calling) : List Invocation → Calling → Prop
  | none : Serves stop c [] c
  | invoke {es : List Invocation} {e : Invocation} {c' c'' : Calling} (before : Serves stop c es c')
      (admits : c'.Admits stop e c'') : Serves stop c (e :: es) c''

variable {stop : Bool} {c c' c'' : Calling} {e : Invocation} {es es' : List Invocation}

theorem Serves.single (h : c.Admits stop e c') : c.Serves stop [e] c' := .invoke .none h

theorem Serves.append (first : c.Serves stop es c') (second : c'.Serves stop es' c'') :
    c.Serves stop (es' ++ es) c'' := by
  induction second with
  | none => exact first
  | invoke _ admits ih => exact .invoke ih admits

end Calling
end Tickwise
