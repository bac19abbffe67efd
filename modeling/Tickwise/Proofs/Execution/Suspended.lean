import Tickwise.Execution.Saved
import Tickwise.Execution.Tick
import Tickwise.Proofs.Execution.Restore
import Tickwise.Proofs.Machine.Adequacy
set_option autoImplicit false

/-!
# Suspended executions

Which executions a host can come to, and what the frames of a suspended one are.
-/
namespace Tickwise

open Exec

def Status.isOver : Status → Bool
  | finished | faulted => true
  | _ => false

namespace Program

/-- The same code in another environment. -/
def inEnvironment (p : Program) (env : Environment) : Program := { p with env := env }

/-- An execution as a start of a function yields it. -/
inductive Starts (p : Program) : Execution Variable → Prop
  | byPosition {id : FunctionId} {args : List Variable} {h : Heap} {x : Execution Variable}
      (start : p.startFunction? id args h = some x) : Starts p x
  | byName {name : String} {args : List Variable} {h : Heap} {x : Execution Variable}
      (start : p.start? name args h = some x) : Starts p x

/-- An execution that was read from bytes. -/
def Loads (p : Program) (x : Execution Variable) : Prop :=
  ∃ bytes h h', p.load bytes h = .ok (x, h')

/-- What becomes of such executions by any ticks, each with a session and an environment of its own, by
requests to stop, and by restoring them. -/
inductive Reaches (p : Program) (origin : Execution Variable → Prop) : Execution Variable → Prop
  | origin {x : Execution Variable} (h : origin x) : Reaches p origin x
  | tick {x : Execution Variable} (e : Environment) (s : Session) (h : Reaches p origin x) :
      Reaches p origin ((p.inEnvironment e).tick x s).execution
  | stop {x : Execution Variable} (h : Reaches p origin x) : Reaches p origin x.requestStop
  | restored {x y : Execution Variable} (h : Reaches p origin x)
      (accepted : p.restore x = (none, y)) : Reaches p origin y

variable {p : Program} {x y : Execution Variable} {s : Session} {f : Function}

theorem begin_of_startFunction? {id : FunctionId} {args : List Variable} {h : Heap}
    (start : p.startFunction? id args h = some x) :
    ∃ f params, p.function? id = some f ∧ bindParams h f.params args = .ok params ∧
      x = Execution.begin p.id id f params := by
  unfold startFunction? at start
  cases hf : p.function? id with
  | none => simp [hf] at start
  | some f =>
    simp only [hf, Option.bind_eq_bind, Option.bind_some] at start
    split at start
    · cases bound : bindParams h f.params args with
      | error => simp [bound, Except.toOption] at start
      | ok params =>
        simp only [bound, Except.toOption, Option.bind_some] at start
        cases start
        exact ⟨f, params, rfl, bound, rfl⟩
    · cases start

theorem startFunction?_of_start? {name : String} {args : List Variable} {h : Heap}
    (start : p.start? name args h = some x) : ∃ id, p.startFunction? id args h = some x := by
  obtain ⟨f, _, found⟩ := List.exists_of_findSome?_eq_some start
  split at found
  · exact ⟨f.id, found⟩
  · cases found

theorem Starts.startFunction? (h : p.Starts x) : ∃ id args heap, p.startFunction? id args heap = some x := by
  cases h with
  | byPosition start => exact ⟨_, _, _, start⟩
  | byName start =>
    obtain ⟨id, start⟩ := startFunction?_of_start? start
    exact ⟨id, _, _, start⟩

theorem Starts.begin (h : p.Starts x) :
    ∃ id f params, p.function? id = some f ∧ x = Execution.begin p.id id f params := by
  obtain ⟨id, _, _, start⟩ := h.startFunction?
  obtain ⟨f, params, found, _, begun⟩ := begin_of_startFunction? start
  exact ⟨id, f, params, found, begun⟩

/-- What a tick does before it executes anything. -/
inductive Prepares (p : Program) (x : Execution Variable) (s : Session) :
    TickResult ⊕ Function × Execution Variable → Prop
  | finished (status : x.status = .finished) :
      Prepares p x s (.inl ⟨.finished (x.result.getD Slot.ofVoid), x, s, [], 0, none⟩)
  | faulted (status : x.status = .faulted) :
      Prepares p x s (.inl ⟨.faulted (x.fault.getD ⟨.notRestored, Span.empty⟩), x, s, [], 0, none⟩)
  | foreign (running : x.status.isOver = false) (foreign : p.function? x.entry = none ∨ x.programId ≠ p.id) :
      Prepares p x s (.inl (fail x s [] ⟨.notRestored, Span.empty⟩))
  | refused {f : Function} {error : RestoreError} {y : Execution Variable} (running : x.status.isOver = false)
      (found : p.function? x.entry = some f) (own : x.programId = p.id) (unrestored : x.isRestored = false)
      (refused : p.restore x = (some error, y)) :
      Prepares p x s (.inl (fail y s [.notRestored error] ⟨.notRestored, f.span⟩))
  | goes {f : Function} (running : x.status.isOver = false) (found : p.function? x.entry = some f)
      (own : x.programId = p.id) (restored : x.isRestored = true) : Prepares p x s (.inr (f, x))
  | accepted {f : Function} {y : Execution Variable} (running : x.status.isOver = false)
      (found : p.function? x.entry = some f) (own : x.programId = p.id) (unrestored : x.isRestored = false)
      (accepted : p.restore x = (none, y)) : Prepares p x s (.inr (f, y))

theorem Prepares.eq {r : TickResult ⊕ Function × Execution Variable} (h : Prepares p x s r) : p.prepare x s = r := by
  have unfinished (running : x.status.isOver = false) : x.status = .ready ∨ x.status = .suspended := by
    cases status : x.status <;> simp_all [Status.isOver]
  unfold prepare
  cases h with
  | finished status => rw [status]
  | faulted status => rw [status]
  | foreign running foreign =>
    rcases unfinished running with status | status <;> rw [status] <;> dsimp only
    all_goals
      rcases foreign with missing | foreign
      · rw [missing]
      · split
        · rfl
        · exact if_pos foreign
  | refused running found own unrestored refused =>
    rcases unfinished running with status | status <;> simp [status, found, own, unrestored, refused]
  | goes running found own restored => rcases unfinished running with status | status <;> simp [status, found, own, restored]
  | accepted running found own unrestored accepted =>
    rcases unfinished running with status | status <;> simp [status, found, own, unrestored, accepted]

theorem exists_prepares (p : Program) (x : Execution Variable) (s : Session) : ∃ r, Prepares p x s r := by
  by_cases running : x.status.isOver = false
  · cases found : p.function? x.entry with
    | none => exact ⟨_, .foreign running (.inl found)⟩
    | some f =>
      by_cases own : x.programId = p.id
      · cases restored : x.isRestored with
        | true => exact ⟨_, .goes running found own restored⟩
        | false =>
          rcases result : p.restore x with ⟨_ | error, y⟩
          · exact ⟨_, .accepted running found own restored result⟩
          · exact ⟨_, .refused running found own restored result⟩
      · exact ⟨_, .foreign running (.inr own)⟩
  · cases status : x.status with
    | finished => exact ⟨_, .finished status⟩
    | faulted => exact ⟨_, .faulted status⟩
    | ready | suspended => exact absurd (by rw [status]; rfl) running

theorem prepare_iff {r : TickResult ⊕ Function × Execution Variable} : p.prepare x s = r ↔ Prepares p x s r := by
  refine ⟨?_, Prepares.eq⟩
  rintro rfl
  obtain ⟨r, h⟩ := exists_prepares p x s
  rwa [h.eq]

theorem prepare_right (h : p.prepare x s = .inr (f, y)) :
    p.function? x.entry = some f ∧ x.status.isOver = false ∧
      (x.isRestored = true ∧ y = x ∨ x.isRestored = false ∧ p.restore x = (none, y)) := by
  cases prepare_iff.1 h with
  | goes running found own restored => exact ⟨found, running, .inl ⟨restored, rfl⟩⟩
  | accepted running found own unrestored accepted => exact ⟨found, running, .inr ⟨unrestored, accepted⟩⟩

theorem prepare_left {r : TickResult} (h : p.prepare x s = .inl r) :
    r.tick.isFinal = true ∧ r.execution.status.isOver = true ∧ r.steps = 0 := by
  cases prepare_iff.1 h with
  | finished status => exact ⟨rfl, by rw [status]; rfl, rfl⟩
  | faulted status => exact ⟨rfl, by rw [status]; rfl, rfl⟩
  | foreign => exact ⟨rfl, rfl, rfl⟩
  | refused => exact ⟨rfl, rfl, rfl⟩

theorem suspended_of_verdict {o : Except Interrupt Variable} {h : Heap} (suspended : verdict f o h = .suspended) :
    o = .error .suspended := by
  unfold verdict at suspended
  split at suspended
  case h_1 => rfl
  case h_2 => split at suspended <;> cases suspended
  case h_3 => cases suspended
  case h_4 => cases suspended
  case h_5 => split at suspended <;> cases suspended

theorem finished_of_verdict {o : Except Interrupt Variable} {h : Heap} {v : Variable}
    (finished : verdict f o h = .finished v) :
    (∃ w, o = .error (.returned w) ∧ h.convert w f.ret = .ok v) ∨ f.ret = .void ∧ v = Slot.ofVoid := by
  unfold verdict at finished
  split at finished
  case h_1 => cases finished
  case h_2 w =>
    split at finished
    case h_1 converted =>
      cases finished
      exact .inl ⟨w, rfl, converted⟩
    case h_2 => cases finished
    case h_3 => cases finished
  case h_3 => cases finished
  case h_4 => cases finished
  case h_5 =>
    split at finished
    case isTrue void =>
      cases finished
      exact .inr ⟨void, rfl⟩
    case isFalse => cases finished

theorem conclude_of_running {o : Except Interrupt Variable} (ho : o ≠ .error .suspended)
    (m : Machine) : (conclude f x o m).tick.isFinal = true ∧
      (conclude f x o m).execution.status.isOver = true := by
  unfold conclude
  cases hv : verdict f o m.heap with
  | suspended => exact absurd (suspended_of_verdict hv) ho
  | finished value => exact ⟨rfl, rfl⟩
  | faulted error => exact ⟨rfl, rfl⟩

theorem conclude_tick (f : Function) (x : Execution Variable) (o : Except Interrupt Variable)
    (m : Machine) : (conclude f x o m).tick = verdict f o m.heap ∧
      (conclude f x o m).session = ⟨m.heap, m.journal⟩ := by
  unfold conclude
  cases verdict f o m.heap <;> exact ⟨rfl, rfl⟩

theorem tick_of_prepare (h : p.prepare x s = .inr (f, y)) {o : Except Interrupt Variable} {m : Machine}
    (run : Executes p p.env.limits.maxFrames f.body (p.machine y s) (o, m)) :
    p.tick x s = { conclude f y o m with steps := m.taken, crash := crash? f o m.heap } := by
  unfold tick
  rw [h]
  dsimp only
  unfold advance
  rw [executes_iff.1 run]

theorem tick_cases (p : Program) (x : Execution Variable) (s : Session) :
    ((p.tick x s).tick.isFinal = true ∧ (p.tick x s).execution.status.isOver = true) ∨
      ∃ f y m, p.prepare x s = .inr (f, y) ∧
        Executes p p.env.limits.maxFrames f.body (p.machine y s) (.error .suspended, m) ∧
        p.tick x s = ⟨.suspended, { y with status := .suspended, frames := m.deeper },
          ⟨m.heap, m.journal⟩, [], m.taken, none⟩ := by
  cases hp : p.prepare x s with
  | inl r =>
    obtain ⟨final, done, _⟩ := prepare_left hp
    unfold tick
    rw [hp]
    exact .inl ⟨final, done⟩
  | inr fy =>
    obtain ⟨f, y⟩ := fy
    obtain ⟨⟨o, m⟩, run⟩ : ∃ r, Executes p p.env.limits.maxFrames f.body (p.machine y s) r :=
      ⟨_, executes_exec ..⟩
    rw [tick_of_prepare hp run]
    by_cases ho : o = .error .suspended
    · subst ho
      exact .inr ⟨f, y, m, rfl, run, rfl⟩
    · exact .inl (conclude_of_running ho m)

def Resumable (p : Program) (x : Execution Variable) : Prop :=
  ∀ f, p.function? x.entry = some f → Fits p f.body x.frames ∨ ∀ g ∈ x.frames, g.live = false

theorem live_of_fits {i : Instr} {frames : List (Frame Variable)} (h : Fits p i frames) :
    ∀ f ∈ frames, f.live = true := by
  induction frames generalizing i with
  | nil => nofun
  | cons f rest ih =>
    obtain ⟨_, live, _, beneath⟩ := h
    refine List.forall_mem_cons.2 ⟨live, ?_⟩
    split at beneath
    · exact ih beneath
    · obtain ⟨g, _, _, beneath⟩ := beneath
      exact ih beneath
    · subst beneath
      nofun

theorem Resumable.prepare (hx : p.Resumable x) (h : p.prepare x s = .inr (f, y)) :
    p.function? x.entry = some f ∧ Fits p f.body y.frames ∧ y.entry = x.entry ∧
      y.frames.map Frame.call = x.frames.map Frame.call := by
  obtain ⟨entry, _, ⟨restored, rfl⟩ | ⟨unrestored, accepted⟩⟩ := prepare_right h
  · refine ⟨entry, ?_, rfl, rfl⟩
    rcases hx f entry with fits | dead
    · exact fits
    · have live := List.all_eq_true.1 restored
      cases hf : y.frames with
      | nil => trivial
      | cons g rest =>
        have hg : g ∈ y.frames := hf ▸ List.mem_cons_self
        have one := live g hg
        rw [dead g hg] at one
        cases one
  · rcases hx f entry with fits | dead
    · have restored : x.isRestored = true := List.all_eq_true.2 (live_of_fits fits)
      rw [restored] at unrestored
      cases unrestored
    · obtain ⟨entry', _, calls⟩ := p.entry_restore accepted
      exact ⟨entry, p.fits_restore entry dead accepted, entry', calls⟩

theorem Resumable.suspends {m : Machine} (hx : p.Resumable x) (h : p.prepare x s = .inr (f, y))
    (run : Executes p p.env.limits.maxFrames f.body (p.machine y s) (.error .suspended, m)) :
    (∃ j g, InFlight p f.body m.deeper j g ∧
      (m.taken = max p.env.limits.stepsPerTick 1 ∨ j.PendingNative g)) ∧
      m.deeper.head?.any Frame.call = x.frames.head?.any Frame.call := by
  obtain ⟨entry, fits, _, calls⟩ := hx.prepare h
  have leaves := run.leaves fits
  have steps := run.around.steps
  obtain ⟨j, g, inFlight, reason⟩ := leaves.suspends rfl
  refine ⟨⟨j, g, inFlight, ?_⟩, (leaves.call rfl).trans (any_head_call calls)⟩
  refine reason.imp_left fun budget => ?_
  change m.budget = 0 at budget
  change m.taken + m.budget = 0 + max p.env.limits.stepsPerTick 1 at steps
  omega

theorem fits_inEnvironment (e : Environment) (i : Instr) (frames : List (Frame Variable)) :
    Fits (p.inEnvironment e) i frames ↔ Fits p i frames := by
  induction frames generalizing i with
  | nil => exact .rfl
  | cons f rest ih =>
    unfold Fits
    cases i.waiting f.state f.index with
    | child c => simp only [ih]
    | callee id => simp only [ih]; rfl
    | _ => exact .rfl

theorem along_inEnvironment (e : Environment) (Q : Instr → Frame Variable → Prop) (i : Instr)
    (frames : List (Frame Variable)) : Along (p.inEnvironment e) Q i frames ↔ Along p Q i frames := by
  induction frames generalizing i with
  | nil => exact .rfl
  | cons f rest ih =>
    unfold Along
    cases i.waiting f.state f.index with
    | child c => simp only [ih]
    | callee id => simp only [ih]; rfl
    | _ => exact .rfl

end Program

theorem InFlight.of_inEnvironment {p : Program} {e : Environment} {i j : Instr} {g : Frame Variable}
    {frames : List (Frame Variable)} (h : InFlight (p.inEnvironment e) i frames j g) :
    InFlight p i frames j g := by
  induction h with
  | idle node live waits => exact .idle node live waits
  | child node live waits parts _ ih => exact .child node live waits parts ih
  | callee node live waits found call _ ih => exact .callee node live waits found call ih

namespace Program

variable {p : Program} {x : Execution Variable}

theorem Starts.fits (h : p.Starts x) : ∃ f, p.function? x.entry = some f ∧ Fits p f.body x.frames ∧
    x.frames.head?.any Frame.call = true ∧ x.status = .ready := by
  obtain ⟨id, f, params, found, rfl⟩ := h.begin
  exact ⟨f, found, fits_start p f.body _ rfl rfl rfl, rfl, rfl⟩

theorem tick_of_over (done : x.status.isOver = true) (p : Program) (s : Session) :
    (p.tick x s).execution = x ∧ (p.tick x s).session = s := by
  unfold tick
  cases hs : x.status with
  | finished => rw [Prepares.eq (.finished hs)]; exact ⟨rfl, rfl⟩
  | faulted => rw [Prepares.eq (.faulted hs)]; exact ⟨rfl, rfl⟩
  | _ => rw [hs] at done; cases done

theorem crash_of_over (done : x.status.isOver = true) (p : Program) (s : Session) : (p.tick x s).crash = none := by
  unfold tick
  cases hs : x.status with
  | finished => rw [Prepares.eq (.finished hs)]
  | faulted => rw [Prepares.eq (.faulted hs)]
  | _ => rw [hs] at done; cases done

theorem over_tick (done : x.status.isOver = true) (p : Program) (s : Session) :
    (p.tick x s).execution.status.isOver = true := by
  rw [(tick_of_over done p s).1]
  exact done

theorem Resumable.tick (hx : p.Resumable x) (e : Environment) (s : Session) :
    ((p.inEnvironment e).tick x s).execution.status.isOver = true ∨
      ∃ f j g, p.function? ((p.inEnvironment e).tick x s).execution.entry = some f ∧
        InFlight p f.body ((p.inEnvironment e).tick x s).execution.frames j g ∧
        ((p.inEnvironment e).tick x s).execution.frames.head?.any Frame.call =
          x.frames.head?.any Frame.call := by
  rcases tick_cases (p.inEnvironment e) x s with ⟨_, done⟩ | ⟨f, y, m, prepared, run, tick⟩
  · exact .inl done
  · have resumable : (p.inEnvironment e).Resumable x := fun f hf =>
      (hx f hf).imp_left (fits_inEnvironment ..).2
    obtain ⟨found, _, entry, _⟩ := resumable.prepare prepared
    obtain ⟨⟨j, g, inFlight, _⟩, call⟩ := resumable.suspends prepared run
    rw [tick]
    exact .inr ⟨f, j, g, by rw [entry]; exact found, inFlight.of_inEnvironment, call⟩

theorem Reaches.frames (h : p.Reaches p.Starts x) :
    x.status.isOver = true ∨ ∃ f, p.function? x.entry = some f ∧ Fits p f.body x.frames ∧
      x.frames.head?.any Frame.call = true ∧
      (x.status = .suspended → ∃ j g, InFlight p f.body x.frames j g) := by
  induction h with
  | origin h =>
    obtain ⟨f, found, fits, call, ready⟩ := h.fits
    exact .inr ⟨f, found, fits, call, fun hs => by rw [ready] at hs; cases hs⟩
  | @tick x e s _ ih =>
    rcases ih with done | ⟨f, found, fits, call, _⟩
    · exact .inl (over_tick done ..)
    · have resumable : p.Resumable x := fun f' hf => by
        cases found.symm.trans hf
        exact .inl fits
      rcases resumable.tick e s with done | ⟨f', j, g, found', inFlight, call'⟩
      · exact .inl done
      · exact .inr ⟨f', found', inFlight.fits, call'.trans call, fun _ => ⟨j, g, inFlight⟩⟩
  | stop _ ih => exact ih
  | @restored x y _ accepted ih =>
    obtain ⟨entry, status, _⟩ := p.entry_restore accepted
    rcases ih with done | ⟨f, found, fits, call, inFlight⟩
    · exact .inl (by rw [status]; exact done)
    · rw [p.restore_of_live (live_of_fits fits) accepted]
      exact .inr ⟨f, found, fits, call, inFlight⟩

/-- The frames of a suspended execution are those of the instructions in flight, from the body of the
started function on, and restoring it accepts them. -/
theorem suspended_inFlight (h : p.Reaches p.Starts x) (hs : x.status = .suspended) :
    (∃ f j g, p.function? x.entry = some f ∧ x.frames.head?.any Frame.call = true ∧
      InFlight p f.body x.frames j g) ∧ p.restore x.unmarked = (none, x) := by
  rcases h.frames with done | ⟨f, found, _, call, inFlight⟩
  · rw [hs] at done
    cases done
  · obtain ⟨j, g, inFlight⟩ := inFlight hs
    exact ⟨⟨f, j, g, found, call, inFlight⟩, inFlight.restore found call⟩

def looping : Program where
  id := "looping"
  functions := [
    ⟨0, "main", [], .void, .mk 0 .empty (.block [.mk 1 .empty (.call (.user 1) [] .void)]), true,
      .empty⟩,
    ⟨1, "loop", [], .void, .mk 2 .empty (.block [.mk 3 .empty (.whileLoop none
      (.mk 4 .empty (.literal (Slot.ofBool true))) (.mk 5 .empty (.block [])))]), false, .empty⟩]
  classes := []
  nodeCount := 6
  env := { Environment.empty with limits := ⟨200, 3⟩ }

def looping.begun : Execution Variable := Execution.begin "looping" 0 (looping.functions[0]) []

theorem looping.starts : looping.Starts begun :=
  .byPosition (show looping.startFunction? 0 [] .empty = some begun from rfl)

def looping.ticked : Execution Variable :=
  ((looping.inEnvironment { Environment.empty with limits := ⟨200, 7⟩ }).tick begun .empty).execution

theorem suspended_inFlight_looping : looping.ticked.status = .suspended ∧
    (∃ f j g, looping.function? looping.ticked.entry = some f ∧
      looping.ticked.frames.head?.any Frame.call = true ∧
      InFlight looping f.body looping.ticked.frames j g) ∧
    looping.restore looping.ticked.unmarked = (none, looping.ticked) := by
  have reaches : looping.Reaches looping.Starts looping.ticked := by
    unfold looping.ticked
    exact .tick _ _ (.origin looping.starts)
  have status : looping.ticked.status = .suspended := by decide +kernel
  exact ⟨status, suspended_inFlight reaches status⟩

end Program
end Tickwise
