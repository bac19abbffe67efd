import Tickwise.Proofs.Execution.Suspended
import Tickwise.Proofs.Machine.ParallelMoves
set_option autoImplicit false

/-!
# Ticks of mirrored executions

Two executions are alike if they are at the same positions with alike variables. Ticks of them, in sessions
that mirror each other, have alike results.
-/
namespace Tickwise

/-- The same execution, with variables that are pairwise as `A` says. -/
structure Execution.Alike {μ ν : Type} (A : μ → ν → Prop) (x : Execution μ) (y : Execution ν) : Prop where
  programId : x.programId = y.programId
  entry : x.entry = y.entry
  status : x.status = y.status
  frames : x.frames.Forall₂ (Frame.Alike A) y.frames
  result : Option.Rel A x.result y.result
  fault : x.fault = y.fault
  stop : x.stop = y.stop

/-- Sessions of which one mirrors the storage of the other, after the same invocations. -/
structure Session.Alike (R : Ref → Ref → Prop) (s t : Session) : Prop where
  heap : s.heap.Mirrors R t.heap
  journal : s.journal.Alike t.journal

inductive Tick.Alike (R : Ref → Ref → Prop) : Tick → Tick → Prop
  | finished {v w : Variable} (h : v.Alike R w) : Alike R (.finished v) (.finished w)
  | suspended : Alike R .suspended .suspended
  | faulted (error : RuntimeError) : Alike R (.faulted error) (.faulted error)

theorem Tick.Alike.isFinal {R : Ref → Ref → Prop} {a b : Tick} (h : a.Alike R b) : a.isFinal = b.isFinal := by
  cases h <;> rfl

structure TickResult.Alike (R : Ref → Ref → Prop) (r r' : TickResult) : Prop where
  tick : r.tick.Alike R r'.tick
  execution : r.execution.Alike (Slot.Alike R) r'.execution
  session : r.session.Alike R r'.session
  crash : r.crash = r'.crash

section

variable {μ ν : Type} {A : μ → ν → Prop} {x : Execution μ} {y : Execution ν} {p : Program}

theorem any_call_alike {fs : List (Frame μ)} {gs : List (Frame ν)} (h : fs.Forall₂ (Frame.Alike A) gs) :
    fs.head?.any Frame.call = gs.head?.any Frame.call := by
  cases h with
  | nil => rfl
  | cons first _ => exact first.call

theorem Program.restoreFrames_alike (p : Program) (i : Instr) (depth : Nat) {fs : List (Frame μ)}
    {gs : List (Frame ν)} (h : fs.Forall₂ (Frame.Alike A) gs) :
    (p.restoreFrames i depth fs).1 = (p.restoreFrames i depth gs).1 ∧
      (p.restoreFrames i depth fs).2.Forall₂ (Frame.Alike A) (p.restoreFrames i depth gs).2 := by
  induction h generalizing i depth with
  | nil => exact ⟨rfl, .nil⟩
  | @cons f g fs gs first rest ih =>
    have live : Frame.Alike A { f with state := g.state, index := g.index, live := true }
        { g with live := true } := { first with state := rfl, index := rfl, live := rfl }
    unfold restoreFrames
    by_cases mismatch : f.node ≠ i.id
    · rw [if_pos mismatch, if_pos (first.node ▸ mismatch), first.node]
      exact ⟨rfl, .cons first rest⟩
    · rw [if_neg mismatch, if_neg (first.node ▸ mismatch)]
      simp only [first.state, first.index]
      cases i.waiting g.state g.index with
      | idle => exact ⟨rfl, .cons live rest⟩
      | child c =>
        obtain ⟨error, frames⟩ := ih c (depth + 1)
        dsimp only
        split
        · exact ⟨rfl, .cons live rest⟩
        · exact ⟨error, .cons live frames⟩
      | callee id =>
        dsimp only
        cases p.function? id with
        | none => exact ⟨rfl, .cons live rest⟩
        | some callee =>
          obtain ⟨error, frames⟩ := ih callee.body (depth + 1)
          dsimp only
          rw [any_call_alike rest]
          split
          · exact ⟨error, .cons live frames⟩
          · exact ⟨rfl, .cons live rest⟩
      | invalid => exact ⟨rfl, .cons live rest⟩

theorem countP_alike {fs : List (Frame μ)} {gs : List (Frame ν)} (h : fs.Forall₂ (Frame.Alike A) gs) :
    fs.countP (fun f => !f.live) = gs.countP fun g => !g.live := by
  induction h with
  | nil => rfl
  | cons first _ ih => rw [List.countP_cons, List.countP_cons, ih, first.live]

theorem Execution.Alike.isRestored (h : x.Alike A y) : x.isRestored = y.isRestored := by
  have frames := h.frames
  unfold Execution.isRestored
  generalize x.frames = fs at frames
  generalize y.frames = gs at frames
  induction frames with
  | nil => rfl
  | cons first _ ih => rw [List.all_cons, List.all_cons, first.live, ih]

theorem Execution.Alike.restore (h : x.Alike A y) :
    (p.restore x).1 = (p.restore y).1 ∧ (p.restore x).2.Alike A (p.restore y).2 := by
  obtain ⟨programId, entry, status, frames, result, fault, stop⟩ := x
  obtain ⟨programId', entry', status', frames', result', fault', stop'⟩ := y
  obtain rfl : entry = entry' := h.entry
  have positions : frames.Forall₂ (Frame.Alike A) frames' := h.frames
  unfold Program.restore
  cases positions with
  | nil => exact ⟨rfl, h⟩
  | @cons f g fs gs first rest =>
    dsimp only
    cases p.function? entry with
    | none => exact ⟨rfl, h⟩
    | some callee =>
      obtain ⟨error, restored⟩ := p.restoreFrames_alike callee.body 0 (.cons first rest)
      dsimp only
      rw [first.call, first.state, first.index]
      split
      · exact ⟨rfl, h⟩
      · refine ⟨?_, { h with frames := restored }⟩
        rw [error, countP_alike restored]

end

variable {R : Ref → Ref → Prop} {p : Program} {x y : Execution Variable} {s t : Session} {f : Function}

theorem Program.fail_alike (h : x.Alike (Slot.Alike R) y) (sessions : s.Alike R t) (ws ws' : List Warning)
    (error : RuntimeError) : (Program.fail x s ws error).Alike R (Program.fail y t ws' error) :=
  ⟨.faulted error, { h with status := rfl, frames := .nil, fault := rfl }, sessions, rfl⟩

theorem Program.finish_alike (h : x.Alike (Slot.Alike R) y) (sessions : s.Alike R t) {v w : Variable}
    (value : v.Alike R w) : (Program.finish x s v).Alike R (Program.finish y t w) :=
  ⟨.finished value, { h with status := rfl, frames := .nil, result := .some value }, sessions, rfl⟩

/-- What a tick executes, or its result, is alike. -/
inductive Prepared (R : Ref → Ref → Prop) :
    TickResult ⊕ Function × Execution Variable → TickResult ⊕ Function × Execution Variable → Prop
  | result {r r' : TickResult} (h : r.Alike R r') : Prepared R (.inl r) (.inl r')
  | code (f : Function) {x y : Execution Variable} (h : x.Alike (Slot.Alike R) y) :
      Prepared R (.inr (f, x)) (.inr (f, y))

theorem Program.prepare_alike (h : x.Alike (Slot.Alike R) y) (sessions : s.Alike R t) :
    Prepared R (p.prepare x s) (p.prepare y t) := by
  unfold prepare
  rw [h.status]
  cases y.status with
  | ready | suspended =>
    dsimp only
    rw [h.entry, h.programId, h.isRestored]
    cases p.function? y.entry with
    | none => exact .result (fail_alike h sessions ..)
    | some f =>
      dsimp only
      split
      · exact .result (fail_alike h sessions ..)
      · split
        · exact .code f h
        · obtain ⟨error, restored⟩ := h.restore (p := p)
          generalize p.restore x = a at error restored
          generalize p.restore y = b at error restored
          obtain ⟨e, x'⟩ := a
          obtain ⟨e', y'⟩ := b
          cases error
          cases e with
          | none => exact .code f restored
          | some e => exact .result (fail_alike restored sessions ..)
  | finished =>
    refine .result ⟨.finished ?_, h, sessions, rfl⟩
    have result := h.result
    generalize x.result = o at result
    generalize y.result = o' at result
    cases result with
    | some value => exact value
    | none => exact .temp .void
  | faulted =>
    rw [h.fault]
    exact .result ⟨.faulted _, h, sessions, rfl⟩

theorem Program.crash?_alike (f : Function) {o o' : Except Interrupt Variable} {h k : Heap}
    (ends : Exec.Ends Slot.Alike R o o') (mirrors : h.Mirrors R k) : crash? f o h = crash? f o' k := by
  cases ends with
  | ok _ => rfl
  | error interrupt =>
    cases interrupt with
    | returned value => exact Heap.crash?_alike mirrors.alike value f.ret
    | _ => rfl

theorem Program.verdict_alike (f : Function) {o o' : Except Interrupt Variable} {h k : Heap}
    (ends : Exec.Ends Slot.Alike R o o') (mirrors : h.Mirrors R k) :
    (verdict f o h).Alike R (verdict f o' k) := by
  have ended : Tick.Alike R (if f.ret = .void then .finished Slot.ofVoid else .faulted ⟨.missingReturn, f.span⟩)
      (if f.ret = .void then .finished Slot.ofVoid else .faulted ⟨.missingReturn, f.span⟩) := by
    split
    · exact .finished (.temp .void)
    · exact .faulted _
  cases ends with
  | ok _ => exact ended
  | error interrupt =>
    cases interrupt with
    | suspended => exact .suspended
    | @returned v w value =>
      have converted := mirrors.alike.convert value f.ret
      unfold verdict
      dsimp only
      rw [Heap.crash?_alike mirrors.alike value f.ret]
      generalize h.convert v f.ret = a at converted
      generalize k.convert w f.ret = b at converted
      cases k.crash? f.ret w with
      | some c => exact .faulted _
      | none =>
        cases converted with
        | ok value => exact .finished value
        | error same =>
          cases same
          exact .faulted _
    | fault error => exact .faulted error
    | crashed c => exact .faulted _
    | breakTo label => exact ended
    | continueTo label => exact ended

theorem Program.conclude_alike (f : Function) (h : x.Alike (Slot.Alike R) y) {o o' : Except Interrupt Variable}
    {m n : Machine} (ends : Exec.Ends Slot.Alike R o o') (machines : m.Alike R n) :
    (conclude f x o m).Alike R (conclude f y o' n) := by
  have verdicts := verdict_alike f ends machines.heap
  have sessions : Session.Alike R ⟨m.heap, m.journal⟩ ⟨n.heap, n.journal⟩ := ⟨machines.heap, machines.journal⟩
  unfold conclude
  dsimp only
  generalize verdict f o m.heap = a at verdicts
  generalize verdict f o' n.heap = b at verdicts
  cases verdicts with
  | suspended => exact ⟨.suspended, { h with status := rfl, frames := machines.deeper }, sessions, rfl⟩
  | finished value => exact finish_alike h sessions value
  | faulted error => exact fail_alike h sessions [] [] error

theorem Execution.Alike.grow {R' : Ref → Ref → Prop} (h : x.Alike (Slot.Alike R) y) (le : R ≤ R') :
    x.Alike (Slot.Alike R') y where
  programId := h.programId
  entry := h.entry
  status := h.status
  frames := Frames.Alike.grow h.frames le
  result := by
    have result := h.result
    generalize x.result = o at result
    generalize y.result = o' at result
    cases result with
    | some value => exact .some (value.grow le)
    | none => exact .none
  fault := h.fault
  stop := h.stop

theorem Program.machine_alike (p : Program) (h : x.Alike (Slot.Alike R) y) (sessions : s.Alike R t) :
    (p.machine x s).Alike R (p.machine y t) where
  frames := .nil
  deeper := h.frames
  heap := sessions.heap
  journal := sessions.journal
  budget := rfl
  taken := rfl
  stop := h.stop

theorem Program.tick_alike (hp : p.OnContent) (h : x.Alike (Slot.Alike R) y) (sessions : s.Alike R t) :
    ∃ R', R ≤ R' ∧ (p.tick x s).Alike R' (p.tick y t) := by
  have prepared := p.prepare_alike h sessions
  unfold tick
  cases hx : p.prepare x s with
  | inl r =>
    rw [hx] at prepared
    generalize p.prepare y t = b at prepared
    cases prepared with
    | result alike => exact ⟨R, le_refl R, alike⟩
  | inr fx =>
    rw [hx] at prepared
    generalize p.prepare y t = b at prepared
    cases prepared with
    | @code f x' y' alike =>
      have closed := hp.functions f (List.mem_of_getElem? (prepare_right hx).1)
      obtain ⟨R', le, ends, machines⟩ :=
        Exec.Alike.exec hp p.env.limits.maxFrames closed R (le_refl R) _ _ (p.machine_alike alike sessions)
      have concluded := conclude_alike f (alike.grow le) ends machines
      exact ⟨R', le, concluded.tick, concluded.execution, concluded.session, crash?_alike f ends machines.heap⟩

end Tickwise
