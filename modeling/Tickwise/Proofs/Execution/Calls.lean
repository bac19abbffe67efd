import Tickwise.Proofs.Codec.Execution
import Tickwise.Proofs.Execution.Persistence
import Tickwise.Proofs.Execution.Steps
import Tickwise.Proofs.Machine.Invoked
set_option autoImplicit false

/-!
# Native calls of a run

Whatever a host does with an execution, tick it, ask it to stop or save and load it, its natives are invoked as
the protocol says, and each by the frame that the call has on the stack.
-/
namespace Tickwise

open Exec

theorem Instr.move_alike {R : Ref → Ref → Prop} {f g : Frame Variable} (h : f.Alike (Slot.Alike R) g)
    (p : Program) (i : Instr) : i.move p f = i.move p g := by
  have caught := Exec.Alike.caughtCode?_alike h.operands
  have kept := Exec.Alike.operandsFault_alike h.operands
  obtain ⟨_, state, index, _, _, scope, _, _⟩ := f
  obtain ⟨_, state', index', _, _, scope', _, _⟩ := g
  obtain rfl : state = state' := h.state
  obtain rfl : index = index' := h.index
  obtain rfl : scope = scope' := h.scope
  dsimp only at caught kept
  unfold Instr.move
  cases i.form with
  | tryCatch body cs =>
    dsimp only
    unfold Move.ofTry
    rw [caught, kept]
  | ret value => cases value <;> rfl
  | _ => rfl

inductive Event where
  | stop
  /-- The execution is replaced by what was saved from one heap and loaded into another. -/
  | reload (saved loaded : Heap)
  | invoke (e : Invocation)

def Event.phase? : Event → Option CallPhase
  | .invoke e => some e.phase
  | _ => none

def asked : List Event → Bool
  | [] => false
  | .stop :: _ => true
  | .reload .. :: _ => false
  | .invoke _ :: past => asked past

inductive Calling.Reloads (saved loaded : Heap) : Calling → Calling → Prop
  | idle : Reloads saved loaded .idle .idle
  | pending {id : NativeId} {args args' : List Variable} {state : Int32}
      (same : args.Forall₂ (saved.Twins loaded maxDepth) args') :
      Reloads saved loaded (.pending ⟨id, args, state⟩) (.pending ⟨id, args', state⟩)
  | over : Reloads saved loaded .over .over

inductive Protocol : List Event → Calling → Prop
  | start : Protocol [] .idle
  | stop {past : List Event} {call : Calling} (h : Protocol past call) : Protocol (.stop :: past) call
  | reload {past : List Event} {call call' : Calling} {saved loaded : Heap} (h : Protocol past call)
      (reloads : call.Reloads saved loaded call') : Protocol (.reload saved loaded :: past) call'
  | invoke {past : List Event} {call call' : Calling} {e : Invocation} (h : Protocol past call)
      (admits : call.Admits (asked past) e call') : Protocol (.invoke e :: past) call'

theorem asked_invocations (es : List Invocation) (past : List Event) :
    asked (es.map .invoke ++ past) = asked past := by
  induction es with
  | nil => rfl
  | cons e es ih => exact ih

theorem Protocol.serves {past : List Event} {call call' : Calling} {es : List Invocation}
    (h : Protocol past call) (serves : call.Serves (asked past) es call') :
    Protocol (es.map .invoke ++ past) call' := by
  induction serves with
  | none => exact h
  | invoke before admits ih =>
    rw [← asked_invocations] at admits
    exact .invoke ih admits

section

variable {p : Program} {call : Calling} {i : Instr} {frames frames' : List (Frame Variable)} {h k : Heap}

theorem Instr.move_twins {f g : Frame Variable} (same : f.Alike (h.Twins k maxDepth) g) (p : Program)
    (i : Instr) : i.move p f = i.move p g := by
  have loose (v w : Variable) (twins : h.Twins k maxDepth v w) : v.Alike (fun _ _ => True) w :=
    Slot.Alike.mono twins fun _ _ _ _ _ => trivial
  exact i.move_alike { same with operands := same.operands.imp loose, locals := same.locals.imp loose } p

theorem Paused.reload (paused : Paused p call i frames)
    (alike : frames.Forall₂ (Frame.Alike (h.Twins k maxDepth)) frames') :
    ∃ call', call.Reloads h k call' ∧ Paused p call' i frames' := by
  induction paused generalizing frames' with
  | step move =>
    obtain ⟨g, rest, same, none, rfl⟩ := List.forall₂_cons_left_iff.1 alike
    cases none
    exact ⟨.idle, .idle, .step ((Instr.move_twins same p _).symm.trans move)⟩
  | native move state =>
    obtain ⟨g, rest, same, none, rfl⟩ := List.forall₂_cons_left_iff.1 alike
    cases none
    rw [same.index]
    exact ⟨_, .pending same.operands,
      .native ((Instr.move_twins same p _).symm.trans move) (same.state.symm.trans state)⟩
  | part move parts _ ih =>
    obtain ⟨g, rest, same, beneath, rfl⟩ := List.forall₂_cons_left_iff.1 alike
    obtain ⟨call', reloads, inner⟩ := ih beneath
    exact ⟨call', reloads, .part ((Instr.move_twins same p _).symm.trans move) parts inner⟩

theorem Paused.of_moves {q : Program} (h : Paused p call i frames)
    (moves : ∀ i f, i.move p f = Instr.move q i f) : Paused q call i frames := by
  induction h with
  | step move => exact .step ((moves _ _).symm.trans move)
  | native move state => exact .native ((moves _ _).symm.trans move) state
  | part move parts _ ih => exact .part ((moves _ _).symm.trans move) parts ih

theorem Poised.of_moves {q : Program} (h : Poised p call i frames)
    (moves : ∀ i f, i.move p f = Instr.move q i f) : Poised q call i frames := by
  induction h with
  | fresh => exact .fresh
  | own starts => exact .own fun id g ret move => starts id g ret ((moves _ _).trans move)
  | native move state => exact .native ((moves _ _).symm.trans move) state
  | part move _ ih => exact .part ((moves _ _).symm.trans move) ih

theorem Executes.room_pos {room : Nat} {m m' : Machine} (run : Executes p room i m (.error .suspended, m')) :
    0 < room := by
  cases room with
  | zero =>
    have ends : settle (if i.isLeaf then leaf i else faultAt i.span .stackOverflow) m = (.error .suspended, m') :=
      run.symm
    have plain : Plain (fun _ => True) (if i.isLeaf then leaf i else faultAt i.span .stackOverflow) :=
      .ite (.leaf trivial) (.faultAt trivial _)
    rw [settle_of_running (plain.ne_suspended m)] at ends
    exact absurd (congrArg Prod.fst ends) (plain.ne_suspended m)
  | succ room => exact Nat.succ_pos room

end

namespace Program

/-- What a host may do with an execution of a function that it started, latest first: tick it, with any budget
and session, ask it to stop, or replace it by what it is saved, loaded and restored as. Only the invocations
in its own ticks are listed. -/
inductive Hosts (p : Program) : List Event → Execution Variable → Prop
  | start {x : Execution Variable} (h : p.Starts x) : Hosts p [] x
  | tick {past : List Event} {x : Execution Variable} {es : List Invocation} (budget : Nat) (s : Session)
      (h : Hosts p past x)
      (made : ((p.withSteps budget).tick x s).session.journal.invocations = es ++ s.journal.invocations) :
      Hosts p (es.map .invoke ++ past) ((p.withSteps budget).tick x s).execution
  | stop {past : List Event} {x : Execution Variable} (h : Hosts p past x) :
      Hosts p (.stop :: past) x.requestStop
  | reload {past : List Event} {x y z : Execution Variable} {saved heap loaded : Heap} {bytes : List UInt8}
      (h : Hosts p past x) (save : (x.save saved).toExcept = .ok bytes)
      (load : p.load bytes heap = .ok (y, loaded)) (restore : p.restore y = (none, z)) :
      Hosts p (.reload saved loaded :: past) z

/-- What an execution shows of its native calls: one is pending just if its frame is the innermost. -/
def Awaits (p : Program) (x : Execution Variable) (call : Calling) : Prop :=
  (x.status = .suspended ∧ ∃ f j g, p.function? x.entry = some f ∧ InFlight p f.body x.frames j g ∧ call.Shown j g) ∨
    x.status = .ready ∧ call = .idle ∨ x.status.isOver = true ∧ (call = .idle ∨ call = .over ∧ x.status = .faulted)

/-- In a tick a native is invoked from the frames of a call, which it has its arguments in now, or from those
that the tick began with, where it was pending, before anything else is executed. `site` is what the frames
belong to, innermost first. -/
def InvokesAt (p : Program) (call : Calling) (x : Execution Variable) (s : Session) (site : List NodeId)
    (e : Invocation) : Prop :=
  ∃ i m id g ret, p.Handles x s i m ∧ i.move p m.own = .invoke id g ret ∧ e = m.invoked id g ∧ m.site = site ∧
    (m.own.state = 1 ∧ m.own.index = 0 ∨
      m.own.state = 2 ∧ m.frames = x.frames.reverse ∧ m.heap = s.heap ∧ m.journal = s.journal ∧
        call = .pending ⟨id, m.own.operands, Int32.ofInt m.own.index⟩)

/-- What a tick invokes, if `Q` holds of the pending call and the execution afterwards: the protocol admits
it, and it is invoked from the frames of calls. A call that is pending afterwards was invoked last, from the
frames that are left. -/
def Calls (p : Program) (budget : Nat) (call : Calling) (x : Execution Variable) (s : Session)
    (Q : Calling → Execution Variable → Prop) : Prop :=
  let q := p.withSteps budget
  let t := q.tick x s
  ∃ es call', t.session.journal.invocations = es ++ s.journal.invocations ∧ call.Serves x.stop es call' ∧
    (∀ e ∈ es, ∃ site, q.InvokesAt call x s site e) ∧
    (∀ c, call' = .pending c →
      ∃ e ∈ es.head?, q.InvokesAt call x s (t.execution.frames.map Frame.node).reverse e) ∧
    Q call' t.execution

structure Carries (p : Program) (f : Function) (call : Calling) (x : Execution Variable) : Prop
    extends Ready p f x where
  waits : (x.status = .ready ∧ call = .idle ∧ ∃ g, x.frames = [g] ∧ g.state = 0) ∨
    x.status = .suspended ∧ Paused p call f.body x.frames
  depth : x.status = .suspended → x.frames.length ≤ p.env.limits.maxFrames

def Abides (p : Program) (call : Calling) (x : Execution Variable) : Prop :=
  (∃ f, p.Carries f call x) ∨
    x.status.isOver = true ∧ x.frames = [] ∧ (call = .idle ∨ call = .over ∧ x.status = .faulted)

variable {p : Program} {f : Function} {call : Calling} {x y z : Execution Variable} {s : Session}

theorem Starts.carries (h : p.Starts x) : ∃ f, p.Carries f .idle x := by
  obtain ⟨id, f, params, found, rfl⟩ := h.begin
  exact ⟨f, {
    running := rfl
    entry := found
    program := rfl
    fits := fits_start p f.body _ rfl rfl rfl
    waits := .inl ⟨rfl, rfl, _, rfl, rfl⟩
    depth := nofun }⟩

theorem Carries.poised (h : p.Carries f call x) : Poised p call f.body x.frames := by
  rcases h.waits with ⟨_, rfl, g, frames, first⟩ | ⟨_, paused⟩
  · have fits := h.fits
    rw [frames] at fits ⊢
    exact .start fits first
  · exact paused.poised

theorem Carries.within (h : p.Carries f call x) (pending : call ≠ .idle) :
    x.frames.length ≤ p.env.limits.maxFrames := by
  rcases h.waits with ⟨_, idle, _⟩ | ⟨suspended, _⟩
  · exact absurd idle pending
  · exact h.depth suspended

theorem stop_conclude (f : Function) (x : Execution Variable) (o : Except Interrupt Variable) (m : Machine) :
    (conclude f x o m).execution.stop = x.stop := by
  unfold conclude
  cases verdict f o m.heap <;> rfl

theorem frames_conclude {o : Except Interrupt Variable} (ho : o ≠ .error .suspended) (f : Function)
    (x : Execution Variable) (m : Machine) : (conclude f x o m).execution.frames = [] := by
  unfold conclude
  cases hv : verdict f o m.heap with
  | suspended => exact absurd (suspended_of_verdict hv) ho
  | _ => rfl

theorem Carries.tick (h : p.Carries f call x) (budget : Nat) (s : Session) :
    p.Calls budget call x s fun call' x' => p.Abides call' x' ∧ x'.stop = x.stop := by
  let q := p.withSteps budget
  obtain ⟨o, m, run⟩ := Executes.total q p.env.limits.maxFrames f.body (q.machine x s)
  have prepared := h.prepare s budget
  have fits : Fits q f.body x.frames := (fits_inEnvironment ..).2 h.fits
  have poised : Poised q call f.body x.frames := h.poised.of_moves fun _ _ => rfl
  have invokes {site : List NodeId} {e : Invocation}
      (made : Invokes q p.env.limits.maxFrames f.body (q.machine x s) site e) : q.InvokesAt call x s site e := by
    obtain ⟨i, m, id, g, ret, handles, move, same, at_, frame⟩ := made.frame fits poised
    refine ⟨i, m, id, g, ret, ⟨f, x, prepared, handles⟩, move, same, at_, frame.imp_right ?_⟩
    rintro ⟨again, frames, pending, heap, journal⟩
    exact ⟨again, frames.trans (List.append_nil _), heap, journal, pending⟩
  obtain ⟨es, call', ⟨journal, serves, made⟩, ends⟩ := run.serves .root h.within fits poised
  unfold Calls
  dsimp only
  rw [tick_of_prepare prepared run]
  refine ⟨es, call', by rw [(conclude_tick f x o m).2]; exact journal, serves,
    fun e he => (made e he).imp fun _ => invokes, fun c pending => ?_, ?_, stop_conclude f x o m⟩
  · by_cases ho : o = .error .suspended
    · subst ho
      obtain ⟨e, last, at_⟩ := ends.last rfl (by rw [pending]; nofun)
      refine ⟨e, last, ?_⟩
      have outer : m.frames = [] := List.map_eq_nil_iff.1 run.around.frames
      have site : m.site = (m.deeper.map Frame.node).reverse := by
        unfold Machine.site Machine.allFrames
        rw [outer, List.append_nil, List.map_reverse]
      change q.InvokesAt call x s (m.deeper.map Frame.node).reverse e
      rw [← site]
      exact invokes at_
    · rcases ends.settled ho with idle | ⟨closed, _⟩
      · cases idle.symm.trans pending
      · cases closed.symm.trans pending
  · by_cases ho : o = .error .suspended
    · subst ho
      obtain ⟨j, g, inFlight, _⟩ := (run.leaves fits).suspends rfl
      have room := run.room_pos
      refine .inl ⟨f, {
        running := rfl
        entry := h.entry
        program := h.program
        fits := (fits_inEnvironment ..).1 inFlight.fits
        waits := .inr ⟨rfl, (ends.paused rfl).of_moves fun _ _ => rfl⟩
        depth := fun _ => run.deeper_le ?_ }⟩
      rcases h.waits with ⟨_, _, g, frames, _⟩ | ⟨suspended, _⟩
      · change x.frames.length ≤ _
        rw [frames]
        exact room
      · exact h.depth suspended
    · refine .inr ⟨(conclude_of_running ho m).2, frames_conclude ho f x m, (ends.settled ho).imp_right ?_⟩
      rintro ⟨closed, span, stopped⟩
      cases stopped
      exact ⟨closed, rfl⟩

theorem Abides.tick (h : p.Abides call x) (budget : Nat) (s : Session) :
    p.Calls budget call x s fun call' x' => p.Abides call' x' ∧ x'.stop = x.stop := by
  rcases h with ⟨f, carries⟩ | done
  · exact carries.tick budget s
  · obtain ⟨same, session⟩ := tick_of_over done.1 (p.withSteps budget) s
    unfold Calls
    dsimp only
    rw [session, same]
    refine ⟨[], call, rfl, .none, nofun, fun c pending => ?_, .inr done, rfl⟩
    rcases done.2.2 with idle | ⟨ended, _⟩
    · cases idle.symm.trans pending
    · cases ended.symm.trans pending

theorem Carries.stop (h : p.Carries f call x) : p.Carries f call x.requestStop where
  running := h.running
  entry := h.entry
  program := h.program
  fits := h.fits
  waits := h.waits
  depth := h.depth

section Reload

variable {saved heap loaded : Heap} {bytes : List UInt8}

theorem alike_of_reload (save : (x.save saved).toExcept = .ok bytes) (load : p.load bytes heap = .ok (y, loaded))
    (restore : p.restore y = (none, z)) :
    x.reread.Alike (saved.Twins loaded maxDepth) y ∧ z = { y with frames := y.frames.map Frame.marked } ∧
      ((∀ f ∈ x.frames, f.live = true) → x.frames.Forall₂ (Frame.Alike (saved.Twins loaded maxDepth)) z.frames) := by
  obtain ⟨_, _, load', alike, _⟩ := (Execution.readable_of_load save load).load save heap
  cases load'.symm.trans load
  have marked := (onPath_of_restore (Loads.dead ⟨bytes, heap, loaded, load⟩) (by rw [restore])).restore
  cases restore.symm.trans marked
  exact ⟨alike, rfl, alike.frames_marked⟩

theorem Carries.reload (h : p.Carries f call x) (save : (x.save saved).toExcept = .ok bytes)
    (load : p.load bytes heap = .ok (y, loaded)) (restore : p.restore y = (none, z)) :
    ∃ call', call.Reloads saved loaded call' ∧ p.Carries f call' z := by
  obtain ⟨alike, rfl, frames⟩ := alike_of_reload save load restore
  have frames := frames (live_of_fits h.fits)
  have entry : p.function? y.entry = some f := alike.entry ▸ h.entry
  have status : y.status = x.status := alike.status.symm
  have ready : p.Ready f { y with frames := y.frames.map Frame.marked } := {
    running := status ▸ h.running
    entry := entry
    program := alike.programId.symm.trans h.program
    fits := p.fits_restore entry (Loads.dead ⟨bytes, heap, loaded, load⟩) restore }
  have depth : (y.frames.map Frame.marked).length ≤ p.env.limits.maxFrames :=
    frames.length_eq ▸ (Execution.readable_of_load save load).depth
  rcases h.waits with ⟨first, rfl, g, single, zero⟩ | ⟨suspended, paused⟩
  · rw [single] at frames
    obtain ⟨g', rest, same, none, new⟩ := List.forall₂_cons_left_iff.1 frames
    cases none
    exact ⟨.idle, .idle, ready, .inl ⟨status.trans first, rfl, g', new, same.state.symm.trans zero⟩, fun _ => depth⟩
  · obtain ⟨call', reloads, paused'⟩ := paused.reload frames
    exact ⟨call', reloads, ready, .inr ⟨status.trans suspended, paused'⟩, fun _ => depth⟩

theorem Abides.reload (h : p.Abides call x) (save : (x.save saved).toExcept = .ok bytes)
    (load : p.load bytes heap = .ok (y, loaded)) (restore : p.restore y = (none, z)) :
    ∃ call', call.Reloads saved loaded call' ∧ p.Abides call' z := by
  rcases h with ⟨f, carries⟩ | ⟨done, none, ends⟩
  · obtain ⟨call', reloads, carries'⟩ := carries.reload save load restore
    exact ⟨call', reloads, .inl ⟨f, carries'⟩⟩
  · obtain ⟨alike, rfl, frames⟩ := alike_of_reload save load restore
    have status : y.status = x.status := alike.status.symm
    have none' : y.frames.map Frame.marked = [] := by
      have empty := frames (by rw [none]; nofun)
      rw [none] at empty
      exact List.forall₂_nil_left_iff.1 empty
    rcases ends with rfl | ⟨rfl, faulted⟩
    · exact ⟨.idle, .idle, .inr ⟨status ▸ done, none', .inl rfl⟩⟩
    · exact ⟨.over, .over, .inr ⟨status ▸ done, none', .inr ⟨rfl, status.trans faulted⟩⟩⟩

end Reload

theorem Hosts.abides {past : List Event} (h : p.Hosts past x) :
    ∃ call, Protocol past call ∧ p.Abides call x ∧ x.stop = asked past := by
  induction h with
  | start starts =>
    obtain ⟨f, carries⟩ := starts.carries
    obtain ⟨id, g, params, _, rfl⟩ := starts.begin
    exact ⟨.idle, .start, .inl ⟨f, carries⟩, rfl⟩
  | @tick past x es budget s _ made ih =>
    obtain ⟨call, protocol, abides, stop⟩ := ih
    obtain ⟨es', call', journal, serves, _, _, abides', stop'⟩ := abides.tick budget s
    obtain rfl : es = es' := List.append_cancel_right (made.symm.trans journal)
    rw [stop] at serves
    exact ⟨call', protocol.serves serves, abides', by rw [asked_invocations, stop', stop]⟩
  | stop _ ih =>
    obtain ⟨call, protocol, ⟨f, carries⟩ | done, _⟩ := ih
    · exact ⟨call, protocol.stop, .inl ⟨f, carries.stop⟩, rfl⟩
    · exact ⟨call, protocol.stop, .inr done, rfl⟩
  | reload _ save load restore ih =>
    obtain ⟨call, protocol, abides, _⟩ := ih
    obtain ⟨call', reloads, abides'⟩ := abides.reload save load restore
    obtain ⟨alike, rfl, _⟩ := alike_of_reload save load restore
    exact ⟨call', protocol.reload reloads, abides', alike.stop.symm⟩

theorem Abides.awaits (h : p.Abides call x) : p.Awaits x call := by
  rcases h with ⟨f, carries⟩ | ⟨done, _, ends⟩
  · rcases carries.waits with ⟨ready, idle, _⟩ | ⟨suspended, paused⟩
    · exact .inr (.inl ⟨ready, idle⟩)
    · obtain ⟨j, g, inFlight, shown⟩ := paused.inFlight carries.fits
      exact .inl ⟨suspended, f, j, g, carries.entry, inFlight, shown⟩
  · exact .inr (.inr ⟨done, ends⟩)

/-- Whatever a host does with an execution, its natives are invoked by the protocol: each call is started once,
in call state 0, resumed as long as it asks to be, with its arguments and the call state it left, and cancelled
at most once, when a stop was asked for, which ends the run. No other native is invoked while one is pending;
then its frame is the innermost one. In each tick natives are invoked from the frames of calls whose arguments
are evaluated then, and first from the frames that were left pending. -/
theorem natives_by_protocol {past : List Event} (h : p.Hosts past x) :
    ∃ call, Protocol past call ∧ p.Awaits x call ∧ ∀ budget s, p.Calls budget call x s fun call' x' => p.Awaits x' call' := by
  obtain ⟨call, protocol, abides, _⟩ := h.abides
  refine ⟨call, protocol, abides.awaits, fun budget s => ?_⟩
  obtain ⟨es, call', journal, serves, made, last, abides', _⟩ := abides.tick budget s
  exact ⟨es, call', journal, serves, made, last, abides'.awaits⟩

theorem Hosts.ticked {past : List Event} (h : p.Hosts past x) (budget : Nat) (empty : s.journal.invocations = []) :
    p.Hosts (((p.withSteps budget).tick x s).session.journal.invocations.map .invoke ++ past)
      ((p.withSteps budget).tick x s).execution :=
  .tick budget s h (by rw [empty, List.append_nil])

theorem natives_by_protocol_counting : ∃ past x, counting.Hosts past x ∧
    past.map Event.phase? = [some .cancel, none, some .start] ∧ x.status = .faulted ∧
    ∃ call, Protocol past call ∧ counting.Awaits x call ∧
      ∀ budget s, counting.Calls budget call x s fun call' x' => counting.Awaits x' call' := by
  have begun : counting.Starts counting.begun :=
    .byPosition (show counting.startFunction? 0 [] .empty = some counting.begun from rfl)
  have empty : Session.empty.journal.invocations = [] := rfl
  have hosts := ((Hosts.start begun).ticked 20 empty).stop.ticked 20 empty
  exact ⟨_, _, hosts, by decide +kernel, by decide +kernel, natives_by_protocol hosts⟩

end Program

end Tickwise
