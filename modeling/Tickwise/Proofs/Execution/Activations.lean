import Tickwise.Proofs.Compile.Comparison
import Tickwise.Proofs.Execution.Backing
import Tickwise.Proofs.Execution.Footprint
import Tickwise.Proofs.Execution.Rejection
import Tickwise.Proofs.Machine.Outer
import Tickwise.Proofs.Machine.Unwinding
set_option autoImplicit false

/-!
# Calls

A call enters a function, and the body executes until it finishes or aborts, maybe over many ticks. All this time the
frames of the call and around it stay as they are, and the body sees none of their variables. What it changes of what
there was can be reached from the arguments, or is handed out by natives.
-/
namespace Tickwise

open Exec

/-- Where a host is with the body of a function that a call has entered: the tick that it makes, and the machine
from which the body executes in that tick. -/
structure Stay where
  execution : Execution Variable
  session : Session
  budget : Nat
  machine : Machine

variable {p : Program} {f g : Function} {room : Nat} {args vs : List Variable} {a a₀ b : Stay}
  {outer : List (Frame Variable)}

def Stay.tick (p : Program) (a : Stay) : TickResult := (p.withSteps a.budget).tick a.execution a.session

def Stay.inner (a : Stay) : Machine := { a.machine with frames := [] }

def Stay.result (p : Program) (room : Nat) (g : Function) (a : Stay) : Result Variable :=
  exec (p.withSteps a.budget) room g.body a.machine

/-- Of what there was, a native changed only what variables lead to, and what it left there and answers leads only to
that and to new storage. -/
structure Heap.Hands (h : Heap) (vs : List Variable) (k : Heap) (r : NativeReply) : Prop where
  size_le : k.size ≤ r.heap.size
  kept : ∀ q, ¬ h.Owns vs q → r.heap.elements q = k.elements q
  inside : ∀ q, h.Owns vs q → ∀ w ∈ r.heap.elements q, w ∈ k.elements q ∨ h.Within vs w
  result : ∀ v, r.outcome = .done v → h.Within vs v

theorem Heap.Hands.serves {h : Heap} {m : Machine} {r : NativeReply} {ret : Ty} (hands : h.Hands vs m.heap r)
    (hm : (Discipline.footprint h vs).Holds m) : (Discipline.footprint h vs).Serves m.heap ret r where
  onward := trivial
  stored := {
    size_le := Nat.le_trans hm.heap.size_le hands.size_le
    kept := fun q apart => (hands.kept q apart).trans (hm.heap.kept q apart)
    inside := fun q owns w hw => (hands.inside q owns w hw).elim (hm.heap.inside q owns w) id }
  admits := hands.result
  converts _ _ := trivial

/-- What natives that are invoked in the body hand out in the tick of a stay lies in what variables lead to. -/
def Stay.Hands (p : Program) (room : Nat) (g : Function) (h : Heap) (vs : List Variable) (a : Stay) : Prop :=
  ∀ i m id f ret, Handles (p.withSteps a.budget) room g.body a.machine i m →
    i.move (p.withSteps a.budget) m.own = .invoke id f ret →
      h.Hands vs m.heap (m.reply f (callPhase m.own.state m.stop))

/-- In the tick of a stay the body executes above frames that it neither changes nor sees: all machines that it comes
to are above them, and variables are found, set and declared without them. -/
structure Stay.Apart (p : Program) (room : Nat) (g : Function) (outer : List (Frame Variable)) (a : Stay) : Prop where
  start : a.machine.frames = outer
  ends : (a.result p room g).2.frames = outer
  visits : ∀ room' i m, Visits (p.withSteps a.budget) room g.body a.machine room' i m →
    (∃ inner, Machine.Secluded outer inner m) ∧
      ∃ inner : Machine, (exec (p.withSteps a.budget) room' i m).2 = inner.above outer
  handles : ∀ i m, Handles (p.withSteps a.budget) room g.body a.machine i m →
    ∃ inner, Machine.Secluded outer inner m ∧ i.DeclaresWithin outer inner

namespace Program

/-- In a tick a call of a function executes the body. -/
inductive Activates (p : Program) (room : Nat) (g : Function) : Stay → Prop
  | call {i : Instr} {id : FunctionId} {es : List Instr} {ret : Ty} {n inside : Machine} {a : Stay}
      (form : i.form = .call (.user id) es ret) (found : p.function? id = some g)
      (visits : (p.withSteps a.budget).Visits a.execution a.session (room + 1) i n)
      (entered : n.enter? i.id = some inside) (passes : Passes (p.withSteps a.budget) room i inside a.machine)
      (within : a.machine.own.state = 2) : Activates p room g a

/-- In a tick a call of a function has computed its arguments and enters the function, and comes to execute the
body. -/
inductive Enters (p : Program) (room : Nat) (g : Function) : List Variable → Stay → Prop
  | call {i : Instr} {id : FunctionId} {es : List Instr} {ret : Ty} {n inside m : Machine} {a : Stay}
      (form : i.form = .call (.user id) es ret) (found : p.function? id = some g)
      (visits : (p.withSteps a.budget).Visits a.execution a.session (room + 1) i n)
      (entered : n.enter? i.id = some inside) (passes : Passes (p.withSteps a.budget) room i inside m)
      (gathered : m.own.state = 1)
      (turned : turn (exec (p.withSteps a.budget) room) (p.withSteps a.budget) room i m = (.ok none, a.machine)) :
      Enters p room g m.own.operands a

/-- The body was suspended, and the next tick goes on with it in the same place, before it does anything else. In
between the host may ask for a stop. -/
structure Continues (p : Program) (room : Nat) (g : Function) (a b : Stay) : Prop where
  suspended : (a.result p room g).1 = .error .suspended
  execution : b.execution = (a.tick p).execution ∨ b.execution = (a.tick p).execution.requestStop
  session : b.session = (a.tick p).session
  visits : (p.withSteps b.budget).Visits b.execution b.session room g.body b.machine
  first : ((p.withSteps b.budget).machine b.execution b.session).Reenters b.machine
  depth : b.machine.frames.length = a.machine.frames.length

end Program

/-- A body that was suspended has left the frames behind as they were, and with any budget the next tick goes on with
it, also after a request to stop. -/
structure Stay.Suspends (p : Program) (room : Nat) (g : Function) (outer : List (Frame Variable)) (a : Stay) :
    Prop where
  frames : (a.tick p).execution.frames = outer.reverse ++ (a.result p room g).2.deeper
  next : ∀ x, x = (a.tick p).execution ∨ x = (a.tick p).execution.requestStop →
    ∀ budget, ∃ m, p.Continues room g a ⟨x, (a.tick p).session, budget, m⟩

/-- A body changed only storage that variables lead to, and what it left there or returned leads only to that and to
new storage. -/
structure Stay.Confined (p : Program) (room : Nat) (g : Function) (h : Heap) (vs : List Variable) (a : Stay) :
    Prop where
  heap : h.Confines vs (a.result p room g).2.heap
  value : ∀ v, (a.result p room g).1 = .ok v ∨ (a.result p room g).1 = .error (.returned v) → h.Within vs v

namespace Program

structure Encloses (p : Program) (f g : Function) (room : Nat) (outer : List (Frame Variable)) (a : Stay) : Prop where
  listed : g ∈ p.functions
  block : ∃ statements, g.body.form = .block statements
  resumes : p.Resumes f a.execution
  visits : (p.withSteps a.budget).Visits a.execution a.session room g.body a.machine
  frames : a.machine.frames = outer
  fits : Fits (p.withSteps a.budget) g.body a.machine.deeper
  call : a.machine.deeper.head?.any Frame.call = true

theorem move_call {i : Instr} {id : FunctionId} {es : List Instr} {ret : Ty} (form : i.form = .call (.user id) es ret)
    (found : p.function? id = some g) {own : Frame Variable} (gathered : own.state ≠ 0) :
    i.move p own = if own.state = 1 then .enter g else .run g.body (result i.span ret) := by
  have move : i.move p own = .ofCall p i.span (.user id) es ret own := by
    unfold Instr.move
    rw [form]
    rfl
  rw [move]
  unfold Move.ofCall
  rw [if_neg gathered]
  dsimp only
  rw [found]

theorem goes_of_enterCallee {span : Span} {m m' : Machine} (framed : m.frames ≠ []) (rest : m.deeper = [])
    (went : goOn (enterCallee span g room) m = (.ok none, m')) :
    ∃ params, bindParams m'.heap g.params m.own.operands = .ok params ∧
      m'.deeper = [Frame.ofCall g.body.id params] ∧ m'.own.state = 2 := by
  obtain ⟨params, n, bound, _, placed, rfl⟩ := enterCallee_ok (eq_ok_of_goOn went)
  have kind (f : Frame Variable) : { f with operands := [] }.kind = f.kind := rfl
  have framed' := ((Machine.Inside.modifyFrame m kind).own_kind framed).1
  have rest' := (m.deeper_modifyFrame ({ · with operands := [] })).trans rest
  have heap := m.heap_modifyFrame ({ · with operands := [] })
  generalize m.modifyFrame ({ · with operands := [] }) = k at placed framed' rest' heap
  unfold Machine.placeCallee? at placed
  rw [rest'] at placed
  cases placed
  refine ⟨params, ?_, Machine.deeper_modifyFrame _ _, ?_⟩
  · rw [Machine.heap_modifyFrame, heap]
    exact bound
  · rw [Machine.own_modifyFrame]
    exact framed'

def enters? (p : Program) (x : Execution Variable) (s : Session) (turns : List Nat) (own : Nat) :
    Option (Nat × FunctionId × List Variable × Machine) :=
  (p.reach? x s turns own).bind fun (room, i, m) =>
    match i.form, m.own.state, turn (exec p room) p room i m with
    | .call (.user id) _ _, 1, (.ok none, m') => some (room, id, m.own.operands, m')
    | _, _, _ => none

theorem Enters.of_enters? {turns : List Nat} {own : Nat} {id : FunctionId}
    (h : (p.withSteps a.budget).enters? a.execution a.session turns own = some (room, id, args, a.machine))
    (found : p.function? id = some g) : p.Enters room g args a := by
  obtain ⟨⟨room', i, m⟩, reached, h⟩ := Option.bind_eq_some_iff.1 h
  obtain ⟨before, inside, visits, entered, passes⟩ := exists_of_reach? reached
  dsimp only at h
  split at h
  case h_1 id' es ret m' form gathered turned =>
    cases h
    exact .call form found visits entered passes gathered turned
  case h_2 => cases h

theorem Resumes.withSteps {x : Execution Variable} (resumes : p.Resumes f x) (budget : Nat) :
    (p.withSteps budget).Resumes f x :=
  (resumes_inEnvironment ..).2 resumes

theorem inhabits_call {q : Program} {i : Instr} {id : FunctionId} {es : List Instr} {ret : Ty} {x : Execution Variable}
    {s : Session} {n inside m : Machine} (hq : q.Sighted) (resumes : q.Resumes f x)
    (form : i.form = .call (.user id) es ret) (visits : q.Visits x s (room + 1) i n)
    (entered : n.enter? i.id = some inside) (passes : Passes q room i inside m) : m.Inhabits q i := by
  obtain ⟨f', y, prepared, visits⟩ := visits
  obtain ⟨rfl, resumes, fits⟩ := resumes.prepare prepared
  have whole : i.isLeaf = false := by
    unfold Instr.isLeaf
    rw [form]
    rfl
  exact passes.inhabits hq ((visits.reaches hq (resumes.reaches fits s)).enter whole entered)

theorem Activates.encloses (hp : p.Sighted) (resumes : p.Resumes f a.execution) (activates : p.Activates room g a) :
    p.Encloses f g room a.machine.frames a := by
  obtain @⟨i, id, es, ret, n, inside, a, form, found, visits, entered, passes, within⟩ := activates
  let q := p.withSteps a.budget
  have inhabits := inhabits_call (hp.inEnvironment _) (resumes.withSteps _) form visits entered passes
  have listed := List.mem_of_getElem? found
  have runs : i.move q a.machine.own = .run g.body (Exec.result i.span ret) := by
    rw [move_call (p := q) form found (by rw [within]; decide), if_neg (by rw [within]; decide)]
  have waits : i.waiting a.machine.own.state a.machine.own.index = .callee id := by
    unfold Instr.waiting
    rw [form, within]
    rfl
  obtain ⟨_, _, _, beneath⟩ := inhabits.fits
  rw [waits] at beneath
  obtain ⟨g', found', call, fits⟩ := beneath
  cases found.symm.trans found'
  obtain ⟨f', y, prepared, visits⟩ := visits
  exact ⟨listed, hp.braced g listed, resumes, ⟨f', y, prepared, .part visits entered passes runs⟩, rfl, fits, call⟩

theorem Enters.activates (hp : p.Sighted) (resumes : p.Resumes f a.execution) (enters : p.Enters room g args a) :
    p.Activates room g a ∧ ∃ params,
      bindParams a.machine.heap g.params args = .ok params ∧ a.machine.deeper = [Frame.ofCall g.body.id params] := by
  obtain @⟨i, id, es, ret, n, inside, m, a, form, found, visits, entered, passes, gathered, turned⟩ := enters
  let q := p.withSteps a.budget
  have inhabits := inhabits_call (hp.inEnvironment _) (resumes.withSteps _) form visits entered passes
  have enters : i.move q m.own = .enter g := by
    rw [move_call (p := q) form found (by rw [gathered]; decide), if_pos gathered]
  have rest : m.deeper = [] := inhabits.fits.eq_nil_of_atRest (by
    rw [(inhabits.fits.agrees enters nofun).1]
    trivial)
  have went : goOn (enterCallee i.span g room) m = (.ok none, a.machine) := by
    rw [turn_apply, enters] at turned
    exact turned
  obtain ⟨params, bound, deeper, state⟩ := goes_of_enterCallee inhabits.framed rest went
  exact ⟨.call form found visits entered (passes.trans (.next turned .here)) state, params, bound, deeper⟩

theorem programId_of_prepare {x y : Execution Variable} {s : Session} (h : p.prepare x s = .inr (f, y)) :
    y.programId = p.id := by
  cases prepare_iff.1 h with
  | goes _ _ own => exact own
  | accepted _ _ own _ accepted => exact (programId_restore accepted).trans own

namespace Encloses

theorem above (encloses : p.Encloses f g room outer a) : a.machine = a.inner.above outer := by
  rw [← encloses.frames]
  rfl

theorem founded (encloses : p.Encloses f g room outer a) : a.inner.Founded g.body := by
  obtain ⟨statements, form⟩ := encloses.block
  have fits := encloses.fits
  have call := encloses.call
  cases left : a.machine.deeper with
  | nil =>
    rw [left] at call
    cases call
  | cons own rest =>
    rw [left] at fits call
    exact .body form rfl left fits.1 call

theorem result (encloses : p.Encloses f g room outer a) :
    a.result p room g = ((exec (p.withSteps a.budget) room g.body a.inner).1,
      (exec (p.withSteps a.budget) room g.body a.inner).2.above outer) := by
  unfold Stay.result
  rw [encloses.above]
  exact lifts_exec encloses.founded

theorem frames_result (encloses : p.Encloses f g room outer a) : (a.result p room g).2.frames = outer := by
  have around := (executes_exec (p.withSteps a.budget) room g.body a.inner).around.frames
  rw [encloses.result]
  change (exec (p.withSteps a.budget) room g.body a.inner).2.frames ++ outer = outer
  rw [List.map_eq_nil_iff.1 around, List.nil_append]

theorem tick (encloses : p.Encloses f g room outer a) (suspended : (a.result p room g).1 = .error .suspended) :
    ∃ y, (p.withSteps a.budget).prepare a.execution a.session = .inr (f, y) ∧
      (a.tick p).execution =
        { y with status := .suspended, frames := outer.reverse ++ (a.result p room g).2.deeper } ∧
      (a.tick p).session = ⟨(a.result p room g).2.heap, (a.result p room g).2.journal⟩ ∧
      Fits p f.body (outer.reverse ++ (a.result p room g).2.deeper) := by
  obtain ⟨f', y, prepared, visits⟩ := encloses.visits
  obtain ⟨rfl, _, fits⟩ := (encloses.resumes.withSteps _).prepare prepared
  obtain ⟨m, ended, reenters⟩ := visits.unwinds (Prod.ext suspended rfl : a.result p room g = (.error .suspended, _))
  have run := executes_iff.2 ended
  have none : m.frames = [] := List.map_eq_nil_iff.1 run.around.frames
  -- All frames together are the same when the tick ends, and then all of them are left behind.
  have deeper : m.deeper = outer.reverse ++ (a.result p room g).2.deeper := by
    have same := congrArg List.reverse reenters.frames
    unfold Machine.allFrames at same
    rw [none, encloses.frames_result] at same
    simpa using same
  have tick : a.tick p = { conclude f' y (.error .suspended) m with steps := m.taken } := tick_of_prepare prepared run
  obtain ⟨_, _, inFlight, _⟩ := (run.leaves fits).suspends rfl
  refine ⟨y, prepared, ?_, ?_, ?_⟩
  · rw [tick, ← deeper]
    rfl
  · rw [tick, reenters.rest]
    rfl
  · rw [← deeper]
    exact (fits_inEnvironment ..).1 inFlight.fits

theorem next (hp : p.Sighted) (encloses : p.Encloses f g room outer a) (continues : p.Continues room g a b) :
    p.Encloses f g room outer b ∧ b.machine.deeper = (a.result p room g).2.deeper ∧
      b.machine.heap = (a.result p room g).2.heap := by
  obtain ⟨y, prepared, execution, session, _⟩ := encloses.tick continues.suspended
  have left : b.execution.frames = outer.reverse ++ (a.result p room g).2.deeper := by
    rcases continues.execution with same | same
    · rw [same, execution]
    · rw [same, execution]
      rfl
  -- Nothing came between, so the frames are the same, and as many of them are around the body as before.
  have all : b.machine.deeper.reverse ++ b.machine.frames = (a.result p room g).2.deeper.reverse ++ outer := by
    refine continues.first.frames.trans ?_
    change b.execution.frames.reverse ++ [] = _
    rw [left]
    simp
  obtain ⟨deeper, frames⟩ := List.append_inj' all (by rw [continues.depth, encloses.frames])
  have deeper : b.machine.deeper = (a.result p room g).2.deeper := List.reverse_injective deeper
  have heap : b.machine.heap = (a.result p room g).2.heap := by
    rw [continues.first.rest]
    change b.session.heap = _
    rw [continues.session, session]
  have leaves := (executes_exec (p.withSteps a.budget) room g.body a.machine).leaves encloses.fits
  obtain ⟨_, _, inFlight, _⟩ := leaves.suspends continues.suspended
  refine ⟨⟨encloses.listed, encloses.block, ?_, continues.visits, frames, ?_, ?_⟩, deeper, heap⟩
  · have later : p.Resumes f (a.tick p).execution := by
      rcases (encloses.resumes.withSteps a.budget).tick (hp.inEnvironment _) a.session with done | later
      · change (a.tick p).execution.status.isOver = true at done
        rw [execution] at done
        cases done
      · exact (resumes_inEnvironment ..).1 later
    rcases continues.execution with same | same
    · exact same ▸ later
    · exact same ▸ ⟨later.entry, later.fits, later.stacked⟩
  · rw [deeper]
    exact (fits_inEnvironment ..).2 ((fits_inEnvironment ..).1 inFlight.fits)
  · rw [deeper]
    exact (leaves.call continues.suspended).trans encloses.call

theorem continued (encloses : p.Encloses f g room outer a) (suspended : (a.result p room g).1 = .error .suspended)
    {x : Execution Variable} (same : x = (a.tick p).execution ∨ x = (a.tick p).execution.requestStop) (budget : Nat) :
    ∃ m, p.Continues room g a ⟨x, (a.tick p).session, budget, m⟩ := by
  obtain ⟨f', y, prepared, visits⟩ := encloses.visits
  obtain ⟨y', prepared', execution, _, fits⟩ := encloses.tick suspended
  cases prepared.symm.trans prepared'
  obtain ⟨_, resumed, _⟩ := (encloses.resumes.withSteps _).prepare prepared
  have own : y.programId = (p.withSteps a.budget).id := programId_of_prepare prepared
  have ready : p.Ready f x := by
    rcases same with rfl | rfl
    all_goals
      rw [execution]
      exact ⟨rfl, resumed.entry, own, fits⟩
  have left (m : Machine) (ended : exec (p.withSteps a.budget) (p.withSteps a.budget).env.limits.maxFrames f.body
      ((p.withSteps a.budget).machine y a.session) = (.error .suspended, m)) :
      ((p.withSteps budget).machine x (a.tick p).session).frames = m.frames ∧
        ((p.withSteps budget).machine x (a.tick p).session).deeper = m.deeper := by
    have run := executes_iff.2 ended
    have tick : a.tick p = { conclude f y (.error .suspended) m with steps := m.taken } :=
      tick_of_prepare prepared run
    refine ⟨(List.map_eq_nil_iff.1 run.around.frames).symm, ?_⟩
    rcases same with rfl | rfl
    all_goals
      rw [tick]
      rfl
  obtain ⟨n, visits', first, frames, _⟩ := visits.again (q := p.withSteps budget)
    (Prod.ext suspended rfl : a.result p room g = (.error .suspended, _)) (fun _ _ => rfl) left
  refine ⟨n, suspended, same, rfl, ⟨f, x, ready.prepare _ budget, visits'⟩, first, ?_⟩
  change n.frames.length = _
  rw [frames, encloses.frames]
  exact congrArg List.length encloses.frames_result

theorem apart (encloses : p.Encloses f g room outer a) : a.Apart p room g outer where
  start := encloses.frames
  ends := encloses.frames_result
  visits room' i m visits := by
    rw [encloses.above] at visits
    obtain ⟨inner, rfl, founded, _⟩ := visits.of_above encloses.founded
    exact ⟨⟨inner, inner.secluded founded.calls outer⟩, _, congrArg Prod.snd (lifts_exec founded)⟩
  handles i m handles := by
    rw [encloses.above] at handles
    obtain ⟨inner, rfl, held, _⟩ := handles.of_above encloses.founded
    exact ⟨inner, inner.secluded held.calls outer, held.declares outer⟩

/-!
## Storage
-/

theorem keeps {h : Heap} (code : ∀ f ∈ p.functions, f.body.Closed) (encloses : p.Encloses f g room outer a)
    (hands : a.Hands p room g h vs) (holds : (Discipline.footprint h vs).Holds a.inner) :
    (Discipline.footprint h vs).Keeps (Discipline.footprint h vs).Admits a.inner.heap
      (exec (p.withSteps a.budget) room g.body a.inner) := by
  let q := p.withSteps a.budget
  have serves : ∀ i m id f ret, Tickwise.Handles q room g.body a.inner i m → i.move q m.own = .invoke id f ret →
      (Discipline.footprint h vs).Holds m →
        (Discipline.footprint h vs).Serves m.heap ret (m.reply f (callPhase m.own.state m.stop)) := by
    -- The frames around the body have no part in what a native is given, or in its reply.
    intro i m id f ret handles move hm
    obtain ⟨held, handles⟩ := handles.above outer encloses.founded
    rw [← encloses.above] at handles
    rw [← Machine.own_above held.framed outer] at move
    have given := hands i _ id f ret handles move
    rw [Machine.own_above held.framed, Machine.reply_above held.framed] at given
    exact Heap.Hands.serves (m := m) given hm
  have guides := Discipline.Guides.of_handles (p := q) (P := Instr.Closed) (Discipline.footprint_permits h vs)
    (fun i hi _ v form => Heap.within_of_none (hi.literal form)) (fun _ _ hi hc => hi.part hc) code serves
  exact guides.executes (executes_exec q room g.body a.inner) ⟨code g encloses.listed, .root⟩ holds

theorem confined {h : Heap} (code : ∀ f ∈ p.functions, f.body.Closed) (encloses : p.Encloses f g room outer a)
    (hands : a.Hands p room g h vs) (holds : (Discipline.footprint h vs).Holds a.inner) :
    a.Confined p room g h vs := by
  obtain ⟨_, kept, ends⟩ := encloses.keeps code hands holds
  refine ⟨?_, fun v ended => ?_⟩
  · rw [encloses.result]
    exact kept.heap
  · rw [encloses.result] at ended
    dsimp only at ended
    rcases ended with same | same
    all_goals
      rw [same] at ends
      exact ends

section Through

variable (hp : p.Sighted) (encloses : p.Encloses f g room outer a₀)
  (on : Relation.ReflTransGen (p.Continues room g) a₀ a)

include hp encloses on

theorem through : p.Encloses f g room outer a := by
  induction on with
  | refl => exact encloses
  | tail _ continues ih => exact (ih.next hp continues).1

theorem holds {h : Heap} (code : ∀ f ∈ p.functions, f.body.Closed)
    (hands : ∀ b, Relation.ReflTransGen (p.Continues room g) a₀ b → Relation.ReflTransGen (p.Continues room g) b a →
      b.Hands p room g h vs) (holds : (Discipline.footprint h vs).Holds a₀.inner) :
    (Discipline.footprint h vs).Holds a.inner := by
  induction on with
  | refl => exact holds
  | @tail b c on continues ih =>
    have holds := ih fun d before after => hands d before (after.tail continues)
    have within := encloses.through hp on
    obtain ⟨_, deeper, heap⟩ := within.next hp continues
    have kept := (within.keeps code (hands b on (.single continues)) holds).holds
    rw [within.result] at deeper heap
    refine ⟨?_, nofun, ?_⟩
    · change (Discipline.footprint h vs).Stored c.machine.heap
      rw [heap]
      exact kept.heap
    · change ∀ f ∈ c.machine.deeper, (Discipline.footprint h vs).HoldsFrame c.machine.heap f
      rw [deeper, heap]
      exact kept.deeper

end Through

end Encloses

theorem Enters.holds (hp : p.Sighted) (resumes : p.Resumes f a.execution) (enters : p.Enters room g args a)
    (handed : List Variable) : (Discipline.footprint a.machine.heap (args ++ handed)).Holds a.inner := by
  obtain ⟨_, params, bound, deeper⟩ := enters.activates hp resumes
  have direct : ∀ v ∈ args, a.machine.heap.Within (args ++ handed) v := fun v hv r refers =>
    .inl (.direct (List.mem_append_left handed hv) refers)
  have locals := Discipline.admits_bindParams (A := Discipline.footprint a.machine.heap (args ++ handed)) direct
    (fun _ _ _ => trivial) bound
  refine ⟨.refl _ _, nofun, ?_⟩
  change ∀ f ∈ a.machine.deeper, _
  rw [deeper]
  exact List.forall_mem_singleton.2 ⟨locals, nofun⟩

theorem Activates.isOver (activates : p.Activates room g a) : a.execution.status.isOver = false := by
  obtain ⟨_, _, ⟨_, _, prepared, _⟩, _⟩ := activates
  exact (prepare_right prepared).2.1

/-- Calls in a compiled program are isolated until the body of the function finishes or aborts, over any number of
ticks. In every tick the body executes above the frames of the call and around it, which stay as they are and out of
its sight. If it is suspended they are left behind as they are, and the next tick goes on with the body. From where the
call enters the function, of the storage that there was only what is reached from the arguments or from what natives
hand out is changed, and what is left there or returned leads only to that and to new storage. -/
theorem calls_isolated {id source : String} {env : Environment} {p : Program}
    (compiled : ofSource id env source = .ok p) (e : Environment) {g : Function} {room : Nat} {a₀ a : Stay}
    (arrives : p.Arrives a₀.execution) (activates : (p.inEnvironment e).Activates room g a₀)
    (on : Relation.ReflTransGen ((p.inEnvironment e).Continues room g) a₀ a) :
    a.Apart (p.inEnvironment e) room g a₀.machine.frames ∧
    ((a.result (p.inEnvironment e) room g).1 = .error .suspended →
      a.Suspends (p.inEnvironment e) room g a₀.machine.frames) ∧
    ∀ args handed, (p.inEnvironment e).Enters room g args a₀ →
      (∀ b, Relation.ReflTransGen ((p.inEnvironment e).Continues room g) a₀ b →
        Relation.ReflTransGen ((p.inEnvironment e).Continues room g) b a →
          b.Hands (p.inEnvironment e) room g a₀.machine.heap (args ++ handed)) →
      a.Confined (p.inEnvironment e) room g a₀.machine.heap (args ++ handed) := by
  have sighted := sighted_ofTokens compiled
  have hp : (p.inEnvironment e).Sighted := sighted.inEnvironment e
  have code := closed_bodies compiled
  obtain ⟨f, resumes⟩ : ∃ f, (p.inEnvironment e).Resumes f a₀.execution := by
    rcases arrives.resumes sighted with done | ⟨f, resumes⟩
    · cases done.symm.trans activates.isOver
    · exact ⟨f, (resumes_inEnvironment ..).2 resumes⟩
  have encloses := activates.encloses hp resumes
  have within := encloses.through hp on
  refine ⟨within.apart, fun suspended => ?_, fun args handed enters hands => ?_⟩
  · obtain ⟨_, _, execution, _⟩ := within.tick suspended
    exact ⟨by rw [execution], fun _ same => within.continued suspended same⟩
  · exact within.confined code (hands a on .refl) (encloses.holds hp on code hands (enters.holds hp resumes handed))

/-!
A program with a function that fills an array and calls itself. Its first tick ends in that function.
-/
namespace Filling

def source : String :=
  "void fill(int[] a, int n) \x7b a[0] = n; if (n > 0) fill(a, n - 1); \x7d " ++
    "void main() \x7b int a[1]; int b[1]; fill(a, 2); \x7d"

def number (id : NodeId) (span : Span) (n : Int32) : Instr := .mk id span (.literal (Slot.ofInt n))

def load (id : NodeId) (span : Span) (var : VarId) (name : String) (ty : Ty) : Instr :=
  .mk id span (.load ⟨var, name, [], ty⟩)

def again : Instr :=
  .mk 12 ⟨49, 53⟩ (.call (.user 0) [load 8 ⟨54, 55⟩ 1 "a" (.array .int),
    .mk 11 ⟨59, 60⟩ (.binary .sub .int (load 9 ⟨57, 58⟩ 2 "n" .int) (number 10 ⟨61, 62⟩ 1))] .void)

def fill : Function :=
  ⟨0, "fill", [⟨"a", .array .int, 1⟩, ⟨"n", .int, 2⟩], .void,
    .mk 14 ⟨26, 27⟩ (.block [
      .mk 4 ⟨33, 34⟩ (.store ⟨1, "a", [.index (number 1 ⟨30, 31⟩ 0) .int], .int⟩ none .int
        (load 3 ⟨35, 36⟩ 2 "n" .int)),
      .mk 13 ⟨38, 40⟩ (.branch
        (.mk 7 ⟨44, 45⟩ (.binary .gt .int (load 5 ⟨42, 43⟩ 2 "n" .int) (number 6 ⟨46, 47⟩ 0))) again none)]),
    false, ⟨5, 9⟩⟩

def main : Function :=
  ⟨1, "main", [], .void,
    .mk 24 ⟨79, 80⟩ (.block [
      .mk 17 ⟨81, 84⟩ (.declList [.mk 16 ⟨85, 86⟩ (.declare 3 "a" (.array .int) [number 15 ⟨87, 88⟩ 1] none)]),
      .mk 20 ⟨91, 94⟩ (.declList [.mk 19 ⟨95, 96⟩ (.declare 4 "b" (.array .int) [number 18 ⟨97, 98⟩ 1] none)]),
      .mk 23 ⟨101, 105⟩ (.call (.user 0) [load 21 ⟨106, 107⟩ 3 "a" (.array .int), number 22 ⟨109, 110⟩ 2] .void)]),
    false, ⟨72, 76⟩⟩

def program : Program := ⟨"test", [fill, main], [], 25, .empty⟩

def begun : Execution Variable := .begin "test" 1 main []

theorem compiled : ofSource "test" .empty source = .ok program :=
  ofSource_eq 20 (by decide +kernel) rfl

def given : List Variable := [Slot.temp (.array .int) (.array 0), Slot.ofInt 2]

def before : Heap := ⟨#[#[Slot.zeroed .int], #[Slot.zeroed .int]]⟩

def entered? : Option (Nat × FunctionId × List Variable × Machine) :=
  (program.withSteps 3).enters? begun .empty [5] 3

theorem enters_filling : ∃ m, program.Enters 198 fill given ⟨begun, .empty, 3, m⟩ ∧ m.heap = before ∧
    (Stay.result program 198 fill ⟨begun, .empty, 3, m⟩).1 = .error .suspended := by
  have code : entered?.map (fun s => (s.1, s.2.1, s.2.2.1)) = some (198, 0, given) := by decide +kernel
  have state : entered?.map (fun s => (s.2.2.2.heap, (Stay.result program 198 fill ⟨begun, .empty, 3, s.2.2.2⟩).1)) =
      some (before, .error .suspended) := by decide +kernel
  obtain ⟨⟨room, id, args, m⟩, entered, same⟩ := Option.map_eq_some_iff.1 code
  cases same
  rw [entered] at state
  obtain ⟨heap, suspended⟩ := Prod.mk.inj (Option.some.inj state)
  exact ⟨m, .of_enters? (a := ⟨begun, .empty, 3, m⟩) entered rfl, heap, suspended⟩

theorem arrives : program.Arrives begun := by
  have started : program.startFunction? 1 [] .empty = some begun := rfl
  exact .start (.byPosition started)

theorem not_owns : ¬ before.Owns given 1 := by
  have first : ∀ r, before.Leads given r → r = 0 := fun r leads => by
    refine leads.within (P := (· = 0)) (fun v hv q refers => ?_) fun q here w hw q' refers => ?_
    · rcases List.mem_cons.1 hv with rfl | hv
      · cases refers
        rfl
      · rw [List.mem_singleton.1 hv] at refers
        cases refers
    · subst here
      have zero : w = Slot.zeroed .int := Array.mem_singleton.1 hw
      rw [zero] at refers
      cases refers
  rintro (leads | beyond)
  · exact absurd (first 1 leads) (by decide)
  · exact absurd beyond (by decide)

theorem calls_isolated_filling : ofSource "test" .empty source = .ok program ∧ program.Arrives begun ∧
    ∃ a₀ a : Stay, program.Enters 198 fill given a₀ ∧ program.Activates 198 fill a₀ ∧ program.Continues 198 fill a₀ a ∧
      a.Apart program 198 fill a₀.machine.frames ∧ a.Confined program 198 fill before given ∧
      (a.result program 198 fill).2.heap.elements 1 = #[Slot.zeroed .int] := by
  obtain ⟨m, enters, heap, suspended⟩ := enters_filling
  have hp := sighted_ofTokens compiled
  obtain ⟨f, resumes⟩ : ∃ f, program.Resumes f begun := (arrives.resumes hp).resolve_left (by decide)
  have activates := (enters.activates hp resumes).1
  obtain ⟨_, suspends, _⟩ := calls_isolated compiled .empty arrives activates .refl
  obtain ⟨n, continues⟩ := (suspends suspended).next _ (.inl rfl) 100
  obtain ⟨apart, _, confined⟩ := calls_isolated compiled .empty arrives activates (.single continues)
  have none (b : Stay) : b.Hands program 198 fill before given := fun i m id f ret _ move => by
    have inside := i.move_inside (program.withSteps b.budget) m.own
    rw [move] at inside
    cases inside
  have confined := confined given [] enters fun b _ _ => by
    rw [List.append_nil, heap]
    exact none b
  rw [List.append_nil, heap] at confined
  exact ⟨compiled, arrives, _, _, enters, activates, continues, apart, confined, confined.heap.kept 1 not_owns⟩

end Filling

end Program
end Tickwise
