import Tickwise.Proofs.Execution.Calls
set_option autoImplicit false

/-!
# Stopping a run

After a stop request the next tick goes back to where the execution was suspended. It ends there with a stop,
which nothing on the way out absorbs.
-/
namespace Tickwise

open Exec

def PendingCall.cancelled (c : PendingCall) (g : NativeFn) (s : Session) : Session :=
  let r := g.handler ⟨c.args, .cancel, c.state, s.heap, s.journal⟩
  ⟨r.heap, ⟨⟨c.native, c.args, s.heap, .cancel, c.state, r.state, r.outcome⟩ :: s.journal.invocations,
    r.reports.reverse ++ s.journal.reports⟩⟩

/-- What a stop does to a session: the pending native is cancelled, if there is one. -/
inductive Calling.Stops (p : Program) (s : Session) : Calling → Session → Prop
  | idle : Stops p s .idle s
  | pending {c : PendingCall} {g : NativeFn} (known : p.env.natives.get? c.native = some g) :
      Stops p s (.pending c) (c.cancelled g s)

theorem Calling.Stops.unique {p : Program} {s s' s'' : Session} {call : Calling} (h : call.Stops p s s')
    (h' : call.Stops p s s'') : s' = s'' := by
  cases h with
  | idle =>
    cases h'
    rfl
  | pending known =>
    cases h' with
    | pending known' =>
      cases known.symm.trans known'
      rfl

def Machine.session (m : Machine) : Session := ⟨m.heap, m.journal⟩

def Machine.stopped (m : Machine) (s : Session) : Machine :=
  { m with deeper := [], heap := s.heap, journal := s.journal }

def Machine.Halts (m : Machine) (p : Program) (room : Nat) (i : Instr) (s : Session) : Prop :=
  ∃ own span, own.locals = m.own.locals ∧ Turn (Executes p room) p room i m
    (.error (.fault ⟨.stopped, span⟩), { m.stopped s with frames := own :: m.frames.tail })

variable {p : Program} {depth room : Nat} {root i : Instr} {m m' m₀ inside : Machine} {call : Calling}
  {s : Session} {frames : List (Frame Variable)}

theorem Paused.isLeaf (paused : Paused p call i frames) : i.isLeaf = false := by
  rw [← Bool.not_eq_true]
  intro leaf
  cases paused with
  | step move | native move | part move =>
    obtain ⟨_, act⟩ := i.move_of_isLeaf leaf p _
    cases act.symm.trans move

theorem Paused.ne_nil (paused : Paused p call i frames) : frames ≠ [] := by
  cases paused <;> simp

theorem Paused.inner {c : Instr} {f : Frame Variable} {follow : Except Interrupt Variable → Exec (Option Variable)}
    (paused : Paused p call i (f :: frames)) (move : i.move p f = .run c follow) : Paused p call c frames := by
  cases paused with
  | step move' | native move' => cases move.symm.trans move'
  | part move' _ inner =>
    cases move.symm.trans move'
    exact inner

theorem Machine.Halts.executes (halts : inside.Halts p room i s) (parts : i.isLeaf = false)
    (entered : m.enter? i.id = some inside) :
    ∃ span, Executes p (room + 1) i m (.error (.fault ⟨.stopped, span⟩), m.stopped s) := by
  obtain ⟨own, span, _, turn⟩ := halts
  obtain ⟨f, deeper, _, _, rfl⟩ := m.enter?_frames entered
  exact ⟨span, (Executes.of_enter parts entered).2 ⟨_, .left turn, rfl⟩⟩

theorem Paused.halts (paused : Paused p call i frames) (own : m.own :: m.deeper = frames) (hm : m.frames ≠ [])
    (fits : Fits p i frames) (stop : m.stop = true) (within : m.deeper.length ≤ room) :
    ∃ s, call.Stops p m.session s ∧ m.Halts p room i s := by
  induction paused generalizing m room with
  | @step i f span state index move =>
    obtain ⟨rfl, alone⟩ := List.cons_eq_cons.1 own
    refine ⟨m.session, .idle, m.own, span, rfl, ?_⟩
    have turn : Turn (Executes p room) p room i m _ := .pass move
    rw [pass_apply, if_pos stop] at turn
    obtain ⟨_ | ⟨own, frames⟩, deeper, _⟩ := m
    · exact absurd rfl hm
    · change deeper = [] at alone
      subst alone
      exact turn
  | @native i f id g ret move again =>
    obtain ⟨rfl, alone⟩ := List.cons_eq_cons.1 own
    have known := (Instr.invokes_of_move fits.2.2.1 move).2.1
    refine ⟨_, .pending known, { m.own with index := (m.reply g .cancel).state.toInt }, i.span, rfl, ?_⟩
    have turn : Turn (Executes p room) p room i m _ := .invoke move
    rw [finish_cancelled again stop] at turn
    obtain ⟨_ | ⟨own, frames⟩, deeper, _⟩ := m
    · exact absurd rfl hm
    · change deeper = [] at alone
      subst alone
      exact turn
  | @part call i c f rest follow move parts inner ih =>
    obtain ⟨rfl, rfl⟩ := List.cons_eq_cons.1 own
    have fits' := fits.inner (fits.agrees move nofun)
    obtain ⟨g, rest, beneath⟩ := List.exists_cons_of_ne_nil inner.ne_nil
    have entered := fits'.enter?_of_cons beneath
    obtain ⟨below, rfl⟩ : ∃ below, room = below + 1 := by
      rw [beneath] at within
      exact Nat.exists_eq_succ_of_ne_zero (by simp at within; omega)
    have within' : rest.length ≤ below := by
      rw [beneath] at within
      simpa using within
    obtain ⟨s, stops, halts⟩ := ih (m := { m with frames := g :: m.frames, deeper := rest }) beneath.symm
      (by simp) fits' stop within'
    obtain ⟨span, executes⟩ := halts.executes parts entered
    refine ⟨s, stops, m.own, span, rfl, ?_⟩
    have turn : Turn (Executes p (below + 1)) p (below + 1) i m _ := .child move executes
    have passes := i.move_passesStop p m.own
    rw [move] at passes
    rw [passes span] at turn
    obtain ⟨_ | ⟨own, frames⟩, _⟩ := m
    · exact absurd rfl hm
    · exact turn

structure Stopping (p : Program) (call : Calling) (room : Nat) (i : Instr) (m₀ m : Machine) : Prop where
  paused : Paused p call i m.deeper
  fits : Fits p i m.deeper
  stop : m.stop = true
  within : m.deeper.length ≤ room
  reenters : m₀.Reenters m

theorem Stopping.halts (h : Stopping p call room i m₀ m) :
    ∃ below inside s, room = below + 1 ∧ m.enter? i.id = some inside ∧ inside.frames.tail = m.frames ∧
      m₀.Reenters inside ∧ call.Stops p m₀.session s ∧ inside.Halts p below i s ∧
        Paused p call i (inside.own :: inside.deeper) ∧ Fits p i (inside.own :: inside.deeper) ∧
          inside.deeper.length ≤ below := by
  obtain ⟨g, rest, beneath⟩ := List.exists_cons_of_ne_nil h.paused.ne_nil
  have entered := h.fits.enter?_of_cons beneath
  obtain ⟨paused, fits, stop, within, reenters⟩ := h
  have enters : m.Reenters _ := .enter fits beneath entered
  rw [beneath] at within fits paused
  obtain ⟨below, rfl⟩ : ∃ below, room = below + 1 :=
    Nat.exists_eq_succ_of_ne_zero (by simp at within; omega)
  have within' : rest.length ≤ below := by simpa using within
  obtain ⟨s, stops, halts⟩ := paused.halts (m := { m with frames := g :: m.frames, deeper := rest }) rfl (by simp) fits
    stop within'
  have session : m.session = m₀.session := by
    rw [reenters.rest]
    rfl
  exact ⟨below, _, s, rfl, entered, rfl, reenters.trans enters, session ▸ stops, halts,
    paused, fits, within'⟩

theorem Passes.eq_of_halts (passes : Passes p room i m m') (halts : m.Halts p room i s) : m' = m := by
  cases passes with
  | here => rfl
  | next first =>
    obtain ⟨own, span, _, turn⟩ := halts
    have ends := (Turn.executes_iff.1 turn).symm.trans first
    cases ends

theorem Visits.stopping (h : Visits p depth root m₀ room i m) (start : Stopping p call depth root m₀ m₀) :
    Stopping p call room i m₀ m := by
  induction h with
  | root => exact start
  | part _ entered passes move ih =>
    obtain ⟨below, inside, s, same, entered', _, reenters, _, halts, paused, fits, within⟩ := ih.halts
    cases same
    obtain rfl := Option.some.inj (entered.symm.trans entered')
    obtain rfl := passes.eq_of_halts halts
    exact ⟨paused.inner move, fits.inner (fits.agrees move nofun), by rw [reenters.rest, ← start.stop], within, reenters⟩

namespace Program

variable {f : Function} {x : Execution Variable} {past : List Event}

theorem Carries.stopping (h : p.Carries f call x) (suspended : x.status = .suspended) (budget : Nat) (s : Session) :
    let m₀ := (p.withSteps budget).machine x.requestStop s
    Stopping (p.withSteps budget) call p.env.limits.maxFrames f.body m₀ m₀ := by
  rcases h.waits with ⟨ready, _⟩ | ⟨_, paused⟩
  · cases ready.symm.trans suspended
  · exact ⟨paused.of_moves fun _ _ => rfl, (fits_inEnvironment ..).2 h.fits, rfl, h.depth suspended, .refl _⟩

/-- A tick executes an instruction that enters its frame and makes one turn there. The turn begins with these
frames, outermost first, and this session, and ends with a stop and the session `s'`. It changes no variable of a
frame. -/
def Unwinds (p : Program) (frames : List (Frame Variable)) (s s' : Session) (room : Nat) (i : Instr)
    (m : Machine) : Prop :=
  ∃ below inside own span, room = below + 1 ∧ m.enter? i.id = some inside ∧ inside.allFrames = frames.reverse ∧
    inside.session = s ∧ own.locals = inside.own.locals ∧ turn (exec p below) p below i inside =
      (.error (.fault ⟨.stopped, span⟩), { inside.stopped s' with frames := own :: m.frames })

/-- A stop cannot be evaded: the tick after the request ends a suspended execution with it and clears the frames,
whatever encloses the innermost one. The pending native is cancelled, if there is one, and no other is invoked.
Each instruction that is executed on the way leaves variables, arrays and objects as they are. -/
theorem stops_in_next_tick (h : p.Hosts past x) (suspended : x.status = .suspended) :
    ∃ call, Protocol past call ∧ p.Awaits x call ∧ ∀ budget s,
      let t := (p.withSteps budget).tick x.requestStop s
      ∃ span, t.tick = .faulted ⟨.stopped, span⟩ ∧
        t.execution = { x with status := .faulted, frames := [], fault := some ⟨.stopped, span⟩, stop := true } ∧
        call.Stops p s t.session ∧ ∀ room i m, (p.withSteps budget).Visits x.requestStop s room i m →
          (p.withSteps budget).Unwinds x.frames s t.session room i m := by
  obtain ⟨call, protocol, abides, _⟩ := h.abides
  refine ⟨call, protocol, abides.awaits, fun budget s => ?_⟩
  rcases abides with ⟨f, carries⟩ | ⟨done, _⟩
  · have start := carries.stopping suspended budget s
    obtain ⟨below, inside, s', room, entered, _, _, stops, halts, _⟩ := start.halts
    obtain ⟨span, executes⟩ := halts.executes start.paused.isLeaf entered
    have prepared := carries.stop.prepare s budget
    have ticked := tick_of_prepare prepared (room ▸ executes)
    dsimp only
    rw [ticked]
    refine ⟨span, rfl, rfl, ?_, ?_⟩
    · cases stops with
      | idle => exact .idle
      | pending known => exact .pending known
    · rintro room i m ⟨f', y, prepared', visits⟩
      cases prepared.symm.trans prepared'
      obtain ⟨below, inside, s'', same, entered, tail, reenters, stops', ⟨own, span', locals, turn⟩, _⟩ :=
        (visits.stopping start).halts
      cases stops.unique stops'
      refine ⟨below, inside, own, span', same, entered, ?_, ?_, locals, ?_⟩
      · rw [reenters.frames]
        exact List.append_nil _
      · rw [reenters.rest]
        rfl
      · rw [tail] at turn
        exact Turn.executes_iff.1 turn
  · rw [suspended] at done
    cases done

theorem stops_in_next_tick_counting : ∃ past x, counting.Hosts past x ∧ x.status = .suspended ∧
    past.map Event.phase? = [some .start] ∧ ∃ call, Protocol past call ∧ counting.Awaits x call ∧ ∀ budget s,
      let t := (counting.withSteps budget).tick x.requestStop s
      ∃ span, t.tick = .faulted ⟨.stopped, span⟩ ∧
        t.execution = { x with status := .faulted, frames := [], fault := some ⟨.stopped, span⟩, stop := true } ∧
        call.Stops counting s t.session ∧ ∀ room i m, (counting.withSteps budget).Visits x.requestStop s room i m →
          (counting.withSteps budget).Unwinds x.frames s t.session room i m := by
  have begun : counting.Starts counting.begun :=
    .byPosition (show counting.startFunction? 0 [] .empty = some counting.begun from rfl)
  have empty : Session.empty.journal.invocations = [] := rfl
  have hosts := (Hosts.start begun).ticked 20 empty
  have suspended : ((counting.withSteps 20).tick counting.begun .empty).execution.status = .suspended := by
    decide +kernel
  exact ⟨_, _, hosts, suspended, by decide +kernel, stops_in_next_tick hosts suspended⟩

end Program

end Tickwise
