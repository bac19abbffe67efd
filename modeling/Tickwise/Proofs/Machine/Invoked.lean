import Tickwise.Proofs.Machine.Serving
import Tickwise.Proofs.Typing.Visits
set_option autoImplicit false

/-!
# The frames that natives are invoked from

Each invocation is made by the frame of a call, which has its arguments then or waited for its native. In the
second case nothing was executed before it in the same tick.
-/
namespace Tickwise

open Exec

variable {p : Program} {depth room : Nat} {root i c : Instr} {m m' m₀ : Machine} {call : Calling}

theorem Turn.executes_iff {r : Result (Option Variable)} :
    Turn (Executes p room) p room i m r ↔ turn (exec p room) p room i m = r := by
  rw [turn_eq_iff]
  exact ⟨.mono fun _ _ _ => Tickwise.executes_iff.1, .mono fun _ _ _ => Tickwise.executes_iff.2⟩

theorem Turns.serves {Q : List NodeId → Invocation → Prop} {r : Result Variable}
    (h : Turns (Executes p room) p room i m r) (hm : m.frames ≠ []) (fits : Fits p i (m.own :: m.deeper))
    (poised : Poised p call i (m.own :: m.deeper)) (within : call ≠ .idle → m.deeper.length ≤ room)
    (own : ∀ m' id g ret, Passes p room i m m' → i.move p m'.own = .invoke id g ret → Q m'.site (m'.invoked id g))
    (below : ∀ m' call c follow r, Passes p room i m m' → i.move p m'.own = .run c follow →
      Executes p room c m' r → (call ≠ .idle → m'.deeper.length ≤ room) → Fits p c m'.deeper →
        Poised p call c m'.deeper → Serving Q p c m' call r.2.deeper r) :
    Serving Q p i m call (r.2.own :: r.2.deeper) r := by
  induction h generalizing call with
  | done last =>
    obtain ⟨es, call', serves, ends⟩ := last.serves hm fits poised (own _ · · · .here) fun c follow r move inner =>
      below _ call c follow r .here move inner within (fits.inner (fits.agrees move nofun)) (poised.inner move)
    cases ends.eq_idle
    exact ⟨es, .idle, serves, .idle nofun⟩
  | left last =>
    exact (last.serves hm fits poised (own _ · · · .here) fun c follow r move inner =>
      below _ call c follow r .here move inner within (fits.inner (fits.agrees move nofun)) (poised.inner move)).left
  | next first rest ih =>
    have turned := Turn.executes_iff.1 first
    have around : ∀ c m r, Executes p room c m r → m.Around r.2 := fun _ _ _ hr => hr.around
    have inside := first.inside around
    have serves := first.serves hm fits poised (own _ · · · .here) fun c follow r move inner =>
      below _ call c follow r .here move inner within (fits.inner (fits.agrees move nofun)) (poised.inner move)
    refine serves.trans (ih (inside.own_kind hm).1 (first.fits around (fun _ _ _ hr => hr.leaves) hm fits)
      (first.poised hm fits poised) (fun pending => absurd rfl pending) ?_ ?_) inside.stop
    · exact fun m' id g ret passes => own m' id g ret (.next turned passes)
    · exact fun m' call c follow r passes => below m' call c follow r (.next turned passes)

def Invokes (p : Program) (depth : Nat) (root : Instr) (m₀ : Machine) (site : List NodeId) (e : Invocation) : Prop :=
  ∃ i m id g ret, Handles p depth root m₀ i m ∧ i.move p m.own = .invoke id g ret ∧ e = m.invoked id g ∧ m.site = site

theorem Serving.leave {Q : List NodeId → Invocation → Prop} {inside : Machine} {r : Result Variable}
    (h : Serving Q p i inside call (r.2.own :: r.2.deeper) r) (entered : m.enter? i.id = some inside)
    (frames : r.2.frames ≠ []) : Serving Q p i m call (leaveFrame r).2.deeper (leaveFrame r) := by
  obtain ⟨es, call', ⟨journal, admits, made⟩, ends⟩ := h
  obtain ⟨same, stop⟩ := Machine.enter?_same entered
  rw [same] at journal
  rw [stop] at admits
  refine ⟨es, call', ⟨by rw [journal_leaveFrame, journal], admits, made⟩, ?_⟩
  obtain ⟨o, m'⟩ := r
  by_cases ho : o = .error .suspended
  · subst ho
    refine ⟨ends.paused, fun suspended pending => ?_, fun running => absurd rfl running⟩
    obtain ⟨e, last, at_⟩ := ends.last suspended pending
    refine ⟨e, last, ?_⟩
    change Q m'.suspend.site e
    rw [Machine.site_suspend frames]
    exact at_
  · rw [leaveFrame_of_running ho]
    exact ⟨fun suspended => absurd suspended ho, fun suspended => absurd suspended ho, ends.settled⟩

theorem Executes.serves {r : Result Variable} (h : Executes p room i m r) (visits : Visits p depth root m₀ room i m)
    (within : call ≠ .idle → m.deeper.length ≤ room) (fits : Fits p i m.deeper) (poised : Poised p call i m.deeper) :
    Serving (Invokes p depth root m₀) p i m call r.2.deeper r := by
  induction room generalizing i m r call with
  | zero =>
    have alone : call = .idle := by
      by_cases pending : call = .idle
      · exact pending
      · have none := List.eq_nil_of_length_eq_zero (Nat.le_zero.1 (within pending))
        rw [none] at poised
        exact poised.idle_of_nil
    have plain : Plain (fun _ => True) (if i.isLeaf then leaf i else faultAt i.span .stackOverflow) :=
      .ite (.leaf trivial) (.faultAt trivial _)
    subst alone
    cases h
    rw [settle_of_running (plain.ne_suspended m)]
    exact .of_journal (plain.isLocal.journal m) (plain.ne_suspended m)
  | succ room ih =>
    cases hl : i.isLeaf with
    | true =>
      have plain : Plain (fun _ => True) (leaf i) := .leaf trivial
      obtain rfl := poised.idle_of_isLeaf hl
      obtain rfl := (Executes.of_leaf hl).1 h
      rw [settle_of_running (plain.ne_suspended m)]
      exact .of_journal (plain.isLocal.journal m) (plain.ne_suspended m)
    | false =>
      obtain ⟨inside, entered⟩ := fits.entered
      obtain ⟨left, turns, rfl⟩ := (Executes.of_enter hl entered).1 h
      obtain ⟨hi, fits', _⟩ := fits.enter entered
      have around : ∀ c m r, Executes p room c m r → m.Around r.2 := fun _ _ _ hr => hr.around
      refine (turns.serves hi fits' (poised.enter fits entered)
        (fun pending => Machine.deeper_le_of_enter? entered (within pending)) ?_ ?_).leave entered
        ((turns.inside around).own_kind hi).1
      · exact fun m' id g ret passes move => ⟨i, m', id, g, ret, .turn visits entered passes, move, rfl, rfl⟩
      · exact fun m' call c follow r passes move inner within fits poised =>
          ih inner (.part visits entered passes move) within fits poised

/-- `m` is as `m₀`, with some of the frames beneath entered again. -/
structure Machine.Reenters (m₀ m : Machine) : Prop where
  frames : m.allFrames = m₀.allFrames
  rest : m = { m₀ with frames := m.frames, deeper := m.deeper }

namespace Machine.Reenters

theorem refl (m : Machine) : m.Reenters m := ⟨rfl, rfl⟩

theorem trans {m n o : Machine} (first : m.Reenters n) (second : n.Reenters o) : m.Reenters o := by
  refine ⟨second.frames.trans first.frames, ?_⟩
  rw [second.rest, first.rest]

theorem enter {inside : Machine} {f : Frame Variable} {rest : List (Frame Variable)} (fits : Fits p i m.deeper)
    (left : m.deeper = f :: rest) (entered : m.enter? i.id = some inside) : m.Reenters inside := by
  rw [fits.enter?_of_cons left] at entered
  cases entered
  refine ⟨?_, rfl⟩
  unfold allFrames
  rw [left, List.reverse_cons, List.append_assoc]
  rfl

end Machine.Reenters

theorem Passes.inside (h : Passes p room i m m') : m.Inside m' := by
  induction h with
  | here => exact .refl _
  | next first _ ih => exact ((Turn.executes_iff.2 first).inside fun _ _ _ hr => hr.around).trans ih

theorem Passes.trans {m'' : Machine} (h : Passes p room i m m') (h' : Passes p room i m' m'') :
    Passes p room i m m'' := by
  induction h with
  | here => exact h'
  | next first _ ih => exact .next first (ih h')

theorem Exec.fst_leaveFrame {α : Type} (r : Result α) : (leaveFrame r).1 = r.1 := by
  unfold leaveFrame
  split <;> rfl

theorem exec_of_passes {inside m'' : Machine} {e : Interrupt} (framed : i.isLeaf = false)
    (entered : m.enter? i.id = some inside) (passes : Passes p room i inside m')
    (raised : turn (exec p room) p room i m' = (.error e, m'')) :
    exec p (room + 1) i m = leaveFrame (.error e, m'') := by
  have turns : Turns (Executes p room) p room i inside (.error e, m'') := by
    clear entered
    induction passes with
    | here => exact .left (Turn.executes_iff.2 raised)
    | next first _ ih => exact .next (Turn.executes_iff.2 first) (ih raised)
  exact executes_iff.1 ((Executes.of_enter framed entered).2 ⟨_, turns, rfl⟩)

theorem Passes.poised (h : Passes p room i m m') (hm : m.frames ≠ []) (fits : Fits p i (m.own :: m.deeper))
    (poised : Poised p call i (m.own :: m.deeper)) :
    Fits p i (m'.own :: m'.deeper) ∧ (m' = m ∨ Poised p .idle i (m'.own :: m'.deeper)) := by
  induction h generalizing call with
  | here => exact ⟨fits, .inl rfl⟩
  | next first _ ih =>
    have turn := Turn.executes_iff.2 first
    have around : ∀ c m r, Executes p room c m r → m.Around r.2 := fun _ _ _ hr => hr.around
    have poised' := turn.poised hm fits poised
    have fits' := turn.fits around (fun _ _ _ hr => hr.leaves) hm fits
    obtain ⟨fits'', same | idle⟩ := ih ((turn.inside around).own_kind hm).1 fits' poised'
    · subst same
      exact ⟨fits'', .inr poised'⟩
    · exact ⟨fits'', .inr idle⟩

theorem Passes.reenters {inside : Machine} (h : Passes p room i inside m') (fits : Fits p i m.deeper)
    (poised : Poised p call i m.deeper) (entered : m.enter? i.id = some inside) :
    Fits p i (m'.own :: m'.deeper) ∧ (Poised p .idle i (m'.own :: m'.deeper) ∨
      Poised p call i (m'.own :: m'.deeper) ∧ m.Reenters m') := by
  have inner := poised.enter fits entered
  obtain ⟨hi, fits', _⟩ := fits.enter entered
  obtain ⟨fits'', same | idle⟩ := h.poised hi fits' inner
  · subst same
    refine ⟨fits'', ?_⟩
    cases hd : m.deeper with
    | nil =>
      rw [hd] at poised
      rw [poised.idle_of_nil] at inner
      exact .inl inner
    | cons f rest => exact .inr ⟨inner, .enter fits hd entered⟩
  · exact ⟨fits'', .inl idle⟩

theorem Visits.poised (h : Visits p depth root m₀ room i m) (fits : Fits p root m₀.deeper)
    (poised : Poised p call root m₀.deeper) :
    Fits p i m.deeper ∧ (Poised p .idle i m.deeper ∨ Poised p call i m.deeper ∧ m₀.Reenters m) := by
  induction h with
  | root => exact ⟨fits, .inr ⟨poised, .refl m₀⟩⟩
  | part _ entered passes move ih =>
    obtain ⟨fits', idle | ⟨poised', reenters⟩⟩ := ih
    · obtain ⟨fits'', idle' | ⟨idle', _⟩⟩ := passes.reenters fits' idle entered
      · exact ⟨fits''.inner (fits''.agrees move nofun), .inl (idle'.inner move)⟩
      · exact ⟨fits''.inner (fits''.agrees move nofun), .inl (idle'.inner move)⟩
    · obtain ⟨fits'', idle' | ⟨poised'', reenters'⟩⟩ := passes.reenters fits' poised' entered
      · exact ⟨fits''.inner (fits''.agrees move nofun), .inl (idle'.inner move)⟩
      · exact ⟨fits''.inner (fits''.agrees move nofun), .inr ⟨poised''.inner move, reenters.trans reenters'⟩⟩

/-- A native is invoked by the frame of a call that has its arguments now, or by the one that was left behind
pending, before anything else is executed. -/
theorem Invokes.frame {site : List NodeId} {e : Invocation} (h : Invokes p depth root m₀ site e) (fits : Fits p root m₀.deeper)
    (poised : Poised p call root m₀.deeper) :
    ∃ i m id g ret, Handles p depth root m₀ i m ∧ i.move p m.own = .invoke id g ret ∧ e = m.invoked id g ∧
      m.site = site ∧ (m.own.state = 1 ∧ m.own.index = 0 ∨ m.own.state = 2 ∧ m.frames = m₀.allFrames ∧
        call = .pending ⟨id, m.own.operands, Int32.ofInt m.own.index⟩ ∧ m.heap = m₀.heap ∧ m.journal = m₀.journal) := by
  obtain ⟨i, m, id, g, ret, handles, move, rfl, rfl⟩ := h
  refine ⟨i, m, id, g, ret, handles, move, rfl, rfl, ?_⟩
  have starts (fits' : Fits p i (m.own :: m.deeper)) (idle : Poised p .idle i (m.own :: m.deeper)) :
      m.own.state = 1 ∧ m.own.index = 0 := by
    rcases idle.invokes move with ⟨_, first⟩ | ⟨pending, _⟩
    · exact first
    · cases pending
  cases handles with
  | turn visits entered passes =>
    obtain ⟨fits', idle | ⟨poised', reenters⟩⟩ := visits.poised fits poised
    · obtain ⟨fits'', idle' | ⟨idle', _⟩⟩ := passes.reenters fits' idle entered
      · exact .inl (starts fits'' idle')
      · exact .inl (starts fits'' idle')
    · obtain ⟨fits'', idle' | ⟨poised'', reenters'⟩⟩ := passes.reenters fits' poised' entered
      · exact .inl (starts fits'' idle')
      · rcases poised''.invokes move with ⟨_, first⟩ | ⟨pending, again⟩
        · exact .inl first
        · have waits := (fits''.agrees move nofun).1
          have alone : m.deeper = [] := fits''.eq_nil_of_atRest (by rw [waits]; trivial)
          obtain ⟨frames, rest⟩ := reenters.trans reenters'
          refine .inr ⟨again, ?_, pending, by rw [rest], by rw [rest]⟩
          rw [← frames]
          unfold Machine.allFrames
          rw [alone]
          rfl
  | follow visits entered passes move' ended =>
    have same := Instr.move_congr (p := p) (i := i) (executes_iff.2 ended).around.own
    cases move.symm.trans (same.trans move')

end Tickwise
