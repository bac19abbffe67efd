import Tickwise.Proofs.Execution.Suspended
import Tickwise.Proofs.Machine.Splitting
set_option autoImplicit false

/-!
# Budgets make no difference

However an execution is cut into ticks, it ends the same way, with the same invocations of natives.
-/
namespace Tickwise

open Exec

namespace Machine

def still (m : Machine) : Machine := { m with budget := 0, taken := 0 }

@[simp] theorem still_more (m : Machine) (k t : Nat) : (m.more k t).still = m.still := rfl

theorem more_still {m : Machine} (h : m.budget = 0) (k : Nat) :
    (m.still.more k 0).more 0 m.taken = m.more k 0 := by
  simp [still, more, h]

end Machine

variable {p : Program} {room : Nat} {i : Instr} {m : Machine} {o : Except Interrupt Variable}
  {s : Session}

/-- An execution comes to an end, with budget enough between the suspensions that natives ask for. -/
inductive Completes (p : Program) (room : Nat) (i : Instr) :
    Machine → Except Interrupt Variable → Session → Prop
  | done {m m' : Machine} {k : Nat} {o : Except Interrupt Variable}
      (run : Executes p room i (m.more k 0) (o, m')) (running : o ≠ .error .suspended) :
      Completes p room i m o ⟨m'.heap, m'.journal⟩
  | pending {m m' : Machine} {k : Nat} {o : Except Interrupt Variable} {s : Session}
      (run : Executes p room i (m.more k 0) (.error .suspended, m')) (left : 0 < m'.budget)
      (rest : Completes p room i m'.still o s) : Completes p room i m o s

/-- An execution comes to an end tick by tick, each with the same budget. -/
inductive Ticked (p : Program) (room : Nat) (i : Instr) (budget : Nat) :
    Machine → Except Interrupt Variable → Session → Prop
  | last {m m' : Machine} {o : Except Interrupt Variable}
      (run : Executes p room i (m.more budget 0) (o, m')) (running : o ≠ .error .suspended) :
      Ticked p room i budget m o ⟨m'.heap, m'.journal⟩
  | next {m m' : Machine} {o : Except Interrupt Variable} {s : Session}
      (run : Executes p room i (m.more budget 0) (.error .suspended, m'))
      (rest : Ticked p room i budget m'.still o s) : Ticked p room i budget m o s

theorem Executes.of_still {m m' : Machine} {k : Nat} (h : m.budget = 0)
    (run : Executes p room i (m.still.more k 0) (o, m')) :
    Executes p room i (m.more k 0) (o, m'.more 0 m.taken) := by
  have later := run.splits.later m.taken
  rwa [Machine.more_still h] at later

theorem Completes.resume {m' : Machine} {k : Nat}
    (run : Executes p room i (m.more k 0) (.error .suspended, m'))
    (rest : Completes p room i m'.still o s) : Completes p room i m o s := by
  rcases run.splits.pauses rfl with ⟨budget, _, resume⟩ | all
  · have resume {k' : Nat} {r : Result Variable} (h : Executes p room i (m'.more k' 0) r) :
        Executes p room i (m.more (k + k') 0) r := by
      have h := resume k' 0 r h
      rwa [Machine.more_more] at h
    generalize hs : m'.still = n at rest
    cases rest with
    | done run' running =>
      subst hs
      have done := Completes.done (resume (run'.of_still budget)) running
      exact done
    | pending run' left rest =>
      subst hs
      exact .pending (resume (run'.of_still budget)) left rest
  · have run' := all 1 0
    rw [Machine.more_more] at run'
    exact .pending run' (Nat.succ_pos _) rest

theorem Ticked.completes {budget : Nat} (h : Ticked p room i budget m o s) :
    Completes p room i m o s := by
  induction h with
  | last run running => exact .done run running
  | next run _ ih => exact .resume run ih

theorem Executes.total (p : Program) (room : Nat) (i : Instr) (m : Machine) :
    ∃ o m', Executes p room i m (o, m') :=
  ⟨_, _, executes_exec p room i m⟩

theorem Ticked.of_run {budget k : Nat} (hb : 0 < budget) {o' : Except Interrupt Variable} {m' : Machine}
    (run : Executes p room i (m.more k 0) (o', m'))
    (rest : o' ≠ .error .suspended ∧ o = o' ∧ s = ⟨m'.heap, m'.journal⟩ ∨
      o' = .error .suspended ∧ 0 < m'.budget ∧ Ticked p room i budget m'.still o s) :
    Ticked p room i budget m o s := by
  induction k using Nat.strongRecOn generalizing m m' with
  | ind k ih =>
    have steady (k' : Nat) : Executes p room i (m.more (k + k') 0) (o', m'.more k' 0) := by
      have all : ∀ j t, Executes p room i ((m.more k 0).more j t) (o', m'.more j t) := by
        rcases rest with ⟨running, _⟩ | ⟨rfl, left, _⟩
        · exact run.splits.ends running
        · refine (run.splits.pauses rfl).resolve_left fun h => ?_
          exact absurd h.1 (Nat.ne_of_gt left)
      have more := all k' 0
      rwa [Machine.more_more] at more
    obtain ⟨o₂, m₂, tick⟩ := Executes.total p room i (m.more budget 0)
    have cut : (∀ k', Executes p room i (m.more (budget + k') 0) (o₂, m₂.more k' 0)) ∨
        o₂ = .error .suspended ∧ m₂.budget = 0 ∧ ∀ k' r, Executes p room i (m₂.more k' 0) r →
          Executes p room i (m.more (budget + k') 0) r := by
      simp only [← Machine.more_more m budget 0 _ 0]
      by_cases ho : o₂ = .error .suspended
      · rcases tick.splits.pauses ho with ⟨used, _, resume⟩ | all
        · exact .inr ⟨ho, used, fun k' r h => resume k' 0 r h⟩
        · exact .inl fun k' => all k' 0
      · exact .inl fun k' => tick.splits.ends ho k' 0
    rcases cut with all | ⟨rfl, used, resume⟩
    · -- The tick got as far as the run.
      have same := (all k).unique (Nat.add_comm k budget ▸ steady budget)
      obtain ⟨rfl, machine⟩ := Prod.mk.inj same
      have heap := congrArg Machine.heap machine
      have journal := congrArg Machine.journal machine
      have still := congrArg Machine.still machine
      change m₂.heap = m'.heap at heap
      change m₂.journal = m'.journal at journal
      change m₂.still = m'.still at still
      rcases rest with ⟨running, rfl, rfl⟩ | ⟨rfl, _, rest⟩
      · rw [← heap, ← journal]
        exact .last tick running
      · rw [← still] at rest
        exact .next tick rest
    · by_cases hk : k ≤ budget
      · have same := (Nat.add_sub_cancel' hk ▸ steady (budget - k)).unique tick
        obtain ⟨rfl, rfl⟩ := Prod.mk.inj same
        rcases rest with ⟨running, _⟩ | ⟨_, left, _⟩
        · exact absurd rfl running
        · exact absurd (Nat.eq_zero_of_add_eq_zero_right used) (Nat.ne_of_gt left)
      · -- The rest of the run follows the tick, with less budget.
        obtain ⟨o₄, m₄, run'⟩ := Executes.total p room i (m₂.still.more (k - budget) 0)
        have same := resume _ _ (run'.of_still used)
        rw [Nat.add_sub_cancel' (Nat.le_of_not_le hk)] at same
        obtain ⟨rfl, rfl⟩ := Prod.mk.inj (same.unique run)
        exact .next tick (ih (k - budget) (by omega) run' rest)

theorem Completes.ticked {budget : Nat} (hb : 0 < budget) (h : Completes p room i m o s) :
    Ticked p room i budget m o s := by
  induction h with
  | done run running => exact .of_run hb run (.inl ⟨running, rfl, rfl⟩)
  | pending run left _ ih => exact .of_run hb run (.inr ⟨rfl, left, ih⟩)

section Moves

variable {q : Program} {run : Instr → Machine → Result Variable → Prop}

theorem Turn.of_moves (same : ∀ i f, Instr.move q i f = i.move p f) {r : Result (Option Variable)}
    (h : Turn run q room i m r) : Turn run p room i m r := by
  cases h with
  | child move inner => exact .child ((same ..).symm.trans move) inner
  | pass move => exact .pass ((same ..).symm.trans move)
  | enter move => exact .enter ((same ..).symm.trans move)
  | invoke move => exact .invoke ((same ..).symm.trans move)
  | act move => exact .act ((same ..).symm.trans move)

theorem Turns.of_moves (same : ∀ i f, Instr.move q i f = i.move p f) {r : Result Variable}
    (h : Turns run q room i m r) : Turns run p room i m r := by
  induction h with
  | done last => exact .done (last.of_moves same)
  | left last => exact .left (last.of_moves same)
  | next first _ ih => exact .next (first.of_moves same) ih

theorem Executes.of_moves (same : ∀ i f, Instr.move q i f = i.move p f) {r : Result Variable}
    (h : Executes q room i m r) : Executes p room i m r := by
  induction room generalizing i m r with
  | zero => exact h
  | succ room ih =>
    cases hl : i.isLeaf with
    | true => exact (of_leaf hl).2 ((of_leaf hl).1 h)
    | false =>
      cases hm : m.enter? i.id with
      | none => exact (of_not_restored hl hm).2 ((of_not_restored hl hm).1 h)
      | some inside =>
        obtain ⟨left, turns, is⟩ := (of_enter hl hm).1 h
        exact (of_enter hl hm).2 ⟨left, (turns.of_moves same).mono fun _ _ _ => ih, is⟩

end Moves

namespace Program

def withSteps (p : Program) (steps : Nat) : Program :=
  p.inEnvironment { p.env with limits := p.env.limits.withSteps steps }

/-- The next tick of an execution executes the body of `f`. -/
structure Ready (p : Program) (f : Function) (x : Execution Variable) : Prop where
  running : x.status.isOver = false
  entry : p.function? x.entry = some f
  program : x.programId = p.id
  fits : Fits p f.body x.frames

variable {f : Function} {x : Execution Variable} {budget : Nat}

theorem machine_withSteps (p : Program) (x : Execution Variable) (s : Session) (budget : Nat) :
    (p.withSteps budget).machine x s = (p.machine x s).still.more (max budget 1) 0 := by
  simp [machine, withSteps, inEnvironment, Limits.withSteps, Machine.still, Machine.more]

theorem Ready.prepare (h : p.Ready f x) (s : Session) (budget : Nat) :
    (p.withSteps budget).prepare x s = .inr (f, x) :=
  Prepares.eq (.goes h.running h.entry h.program (List.all_eq_true.2 (live_of_fits h.fits)))

theorem Ready.tick (h : p.Ready f x) {m : Machine}
    (run : Executes p p.env.limits.maxFrames f.body ((p.machine x s).still.more (max budget 1) 0)
      (o, m)) : (p.withSteps budget).tick x s =
      { conclude f x o m with steps := m.taken, crash := crash? f o m.heap } := by
  rw [← machine_withSteps] at run
  have run : Executes (p.withSteps budget) p.env.limits.maxFrames f.body
      ((p.withSteps budget).machine x s) (o, m) :=
    Executes.of_moves (p := p.withSteps budget) (q := p) (fun _ _ => rfl) run
  exact tick_of_prepare (h.prepare s budget) run

theorem Ready.next (h : p.Ready f x) {k : Nat} {m : Machine}
    (run : Executes p p.env.limits.maxFrames f.body ((p.machine x s).still.more k 0)
      (.error .suspended, m)) :
    p.Ready f { x with status := .suspended, frames := m.deeper } ∧
      (p.machine { x with status := .suspended, frames := m.deeper } ⟨m.heap, m.journal⟩).still =
        m.still := by
  have around := run.around
  obtain ⟨j, g, inFlight, _⟩ := (run.leaves h.fits).suspends rfl
  have frames : m.frames = [] := List.map_eq_nil_iff.1 around.frames
  have stop : m.stop = x.stop := around.stop
  refine ⟨⟨rfl, h.entry, h.program, inFlight.fits⟩, ?_⟩
  unfold machine Machine.still
  rw [frames, stop]

theorem run_of_final (n : Nat) (h : (p.tick x s).tick.isFinal = true) :
    p.run (n + 1) x s = p.tick x s :=
  if_pos h

theorem run_of_suspended (n : Nat) (h : (p.tick x s).tick.isFinal = false) :
    (p.run (n + 1) x s).tick = (p.run n (p.tick x s).execution (p.tick x s).session).tick ∧
      (p.run (n + 1) x s).session =
        (p.run n (p.tick x s).execution (p.tick x s).session).session := by
  have suspended : ¬ (p.tick x s).tick.isFinal = true := by simp [h]
  simp only [run, if_neg suspended, and_self]

theorem Ready.ticked {n : Nat} (h : p.Ready f x)
    (final : ((p.withSteps budget).run n x s).tick.isFinal = true) :
    ∃ o s', Ticked p p.env.limits.maxFrames f.body (max budget 1) (p.machine x s).still o s' ∧
      ((p.withSteps budget).run n x s).tick = verdict f o s'.heap ∧
      ((p.withSteps budget).run n x s).session = s' := by
  induction n generalizing x s with
  | zero => cases final
  | succ n ih =>
    obtain ⟨o, m, run⟩ := Executes.total p p.env.limits.maxFrames f.body
      ((p.machine x s).still.more (max budget 1) 0)
    have tick := h.tick run
    by_cases ho : o = .error .suspended
    · subst ho
      obtain ⟨ready, machine⟩ := h.next run
      obtain ⟨ticks, sessions⟩ := run_of_suspended (p := p.withSteps budget) n (by rw [tick]; rfl)
      rw [ticks, tick] at final ⊢
      rw [sessions, tick]
      obtain ⟨o, s', ticked, ends, session⟩ := ih ready final
      exact ⟨o, s', .next run (machine ▸ ticked), ends, session⟩
    · obtain ⟨ends, session⟩ := conclude_tick f x o m
      have done := (conclude_of_running ho m : (conclude f x o m).tick.isFinal = true ∧ _).1
      rw [run_of_final n (by rw [tick]; exact done), tick]
      exact ⟨o, ⟨m.heap, m.journal⟩, .last run ho, ends, session⟩

theorem Ready.run (h : p.Ready f x) {s' : Session}
    (ticked : Ticked p p.env.limits.maxFrames f.body (max budget 1) (p.machine x s).still o s') :
    ∃ n, ((p.withSteps budget).run n x s).tick = verdict f o s'.heap ∧
      ((p.withSteps budget).run n x s).session = s' := by
  generalize hm : (p.machine x s).still = m at ticked
  induction ticked generalizing x s with
  | @last _ m o run running =>
    subst hm
    have tick := h.tick run
    have done := (conclude_of_running running m : (conclude f x o m).tick.isFinal = true ∧ _).1
    refine ⟨1, ?_⟩
    rw [run_of_final 0 (by rw [tick]; exact done), tick]
    exact conclude_tick f x o m
  | next run _ ih =>
    subst hm
    obtain ⟨ready, machine⟩ := h.next run
    obtain ⟨n, ends, session⟩ := ih ready machine
    have tick := h.tick run
    obtain ⟨ticks, sessions⟩ := run_of_suspended (p := p.withSteps budget) n (by rw [tick]; rfl)
    refine ⟨n + 1, ?_⟩
    rw [ticks, sessions, tick]
    exact ⟨ends, session⟩

/-- With whatever step budgets an execution is ticked, it ends with the same outcome, after the same
invocations of natives. -/
theorem run_independent_of_budget (h : p.Starts x) (s : Session) (a b n : Nat)
    (final : ((p.withSteps a).run n x s).tick.isFinal = true) :
    ∃ n', ((p.withSteps b).run n' x s).tick = ((p.withSteps a).run n x s).tick ∧
      ((p.withSteps b).run n' x s).session = ((p.withSteps a).run n x s).session := by
  obtain ⟨id, f, params, found, rfl⟩ := h.begin
  have ready : p.Ready f (Execution.begin p.id id f params) :=
    ⟨rfl, found, rfl, fits_start p f.body _ rfl rfl rfl⟩
  obtain ⟨o, s', ticked, tick, session⟩ := ready.ticked final
  obtain ⟨n', tick', session'⟩ :=
    ready.run (ticked.completes.ticked (Nat.lt_of_lt_of_le Nat.zero_lt_one (Nat.le_max_right b 1)))
  exact ⟨n', tick'.trans tick.symm, session'.trans session.symm⟩

def counting : Program where
  id := "counting"
  functions := [⟨0, "main", [], .void, .mk 0 .empty (.block [
    .mk 1 .empty (.declare 1 "n" .int [] (some (.mk 2 .empty (.literal (Slot.ofInt 2))))),
    .mk 3 .empty (.whileLoop none (.mk 4 .empty (.load ⟨1, "n", [], .int⟩))
      (.mk 5 .empty (.step ⟨1, "n", [], .int⟩ false true))),
    .mk 6 .empty (.call (.native 0) [.mk 7 .empty (.literal (Slot.ofInt 2))] .void)]), true, .empty⟩]
  classes := []
  nodeCount := 8
  env := { Environment.empty with natives := ⟨[⟨"wait", [.exact .int], .void, Library.wait⟩]⟩ }

def counting.begun : Execution Variable := Execution.begin "counting" 0 (counting.functions[0]) []

theorem run_independent_of_budget_counting : counting.Starts counting.begun ∧
    ((counting.withSteps 1).run 8 counting.begun .empty).tick.isFinal = true ∧
    ∃ n', ((counting.withSteps 3).run n' counting.begun .empty).tick =
        ((counting.withSteps 1).run 8 counting.begun .empty).tick ∧
      ((counting.withSteps 3).run n' counting.begun .empty).session =
        ((counting.withSteps 1).run 8 counting.begun .empty).session := by
  have starts : counting.Starts counting.begun :=
    .byPosition (show counting.startFunction? 0 [] .empty = some counting.begun from rfl)
  have final : ((counting.withSteps 1).run 8 counting.begun .empty).tick.isFinal = true := by
    decide +kernel
  exact ⟨starts, final, run_independent_of_budget starts .empty 1 3 8 final⟩

end Program
end Tickwise
