import Tickwise.Proofs.Machine.KeepingParts
set_option autoImplicit false

/-!
# Executions and the journal

The journal is written and never read: where natives do not look at what was invoked before, an execution does the
same whatever is in the journal.
-/
namespace Tickwise

open Exec

/-- What was invoked before makes no difference to the native. -/
def NativeFn.Unlogged (f : NativeFn) : Prop := ∀ c j, f.handler { c with journal := j } = f.handler c

namespace Machine

def logging (m : Machine) (j : Journal) : Machine := { m with journal := j }

theorem modifyFrame_logging (m : Machine) (j : Journal) (g : Frame Variable → Frame Variable) :
    (m.logging j).modifyFrame g = (m.modifyFrame g).logging j := by
  obtain ⟨_ | _, _⟩ := m <;> rfl

theorem enter?_logging (m : Machine) (j : Journal) (node : NodeId) :
    (m.logging j).enter? node = (m.enter? node).map (·.logging j) := by
  unfold enter? logging
  rcases m.deeper with _ | ⟨f, rest⟩
  · rfl
  · by_cases hn : f.node = node <;> by_cases hl : f.live <;> simp [hn, hl]

end Machine

namespace Exec

variable {α β : Type}

/-- What a computation does does not depend on the journal, but for what is noted down in it. -/
def Unlogged (c : Exec α) : Prop :=
  ∀ (m : Machine) (j : Journal), ∃ k, c (m.logging j) = ((c m).1, (c m).2.logging k)

theorem IsLocal.unlogged {c : Exec α} (h : IsLocal c) : Unlogged c := by
  intro m j
  have same : (c m).2.under (m.logging j) = (c m).2.logging j := by
    calc (c m).2.under (m.logging j) = ((c m).2.under m).logging j := rfl
      _ = (c m).2.logging j := by rw [h.under_self]
  refine ⟨j, ?_⟩
  rw [← same]
  exact h m (m.logging j)

namespace Unlogged

theorem bind {c : Exec α} {f : α → Exec β} (hc : Unlogged c) (hf : ∀ a, Unlogged (f a)) : Unlogged (c >>= f) := by
  intro m j
  obtain ⟨k, same⟩ := hc m j
  rw [bind_apply, bind_apply, same]
  rcases c m with ⟨_ | a, m'⟩
  · exact ⟨k, rfl⟩
  · exact hf a m' k

theorem throw (e : Interrupt) : Unlogged (throw e : Exec α) := fun _ j => ⟨j, rfl⟩

theorem pure (a : α) : Unlogged (pure a : Exec α) := fun _ j => ⟨j, rfl⟩

theorem outcomeOf {c : Exec α} (hc : Unlogged c) : Unlogged (Exec.outcomeOf c) := by
  intro m j
  obtain ⟨k, same⟩ := hc m j
  exact ⟨k, by rw [Exec.outcomeOf, Exec.outcomeOf, same]⟩

theorem settle {c : Exec α} (hc : Unlogged c) : Unlogged (Exec.settle c) := by
  intro m j
  obtain ⟨k, same⟩ := hc m j
  refine ⟨k, ?_⟩
  unfold Exec.settle
  rw [same]
  rcases c m with ⟨e | a, m'⟩
  · cases e <;> rfl
  · rfl

theorem inFrame {c : Exec α} (hc : Unlogged c) (node : NodeId) (span : Span) : Unlogged (Exec.inFrame node span c) := by
  intro m j
  have entered := m.enter?_logging j node
  unfold Exec.inFrame
  rw [entered]
  cases m.enter? node with
  | none => exact settle (.throw _) m j
  | some inside =>
    obtain ⟨k, same⟩ := hc inside j
    refine ⟨k, ?_⟩
    dsimp only [Option.map_some]
    rw [same]
    rcases c inside with ⟨e | a, m'⟩
    · cases e <;> rfl
    · rfl

theorem spend (span : Span) : Unlogged (Exec.spend span) := by
  intro m j
  refine ⟨j, ?_⟩
  rw [spend_apply, spend_apply]
  by_cases stop : m.stop = true
  · rw [if_pos stop]
    exact if_pos stop
  · by_cases budget : m.budget = 0
    · rw [if_neg stop, if_pos budget]
      exact (if_neg stop).trans (if_pos budget)
    · rw [if_neg stop, if_neg budget]
      exact (if_neg stop).trans (if_neg budget)

theorem answered (span : Span) (ret : Ty) (outcome : NativeOutcome) : Unlogged (Exec.answered span ret outcome) := by
  cases outcome with
  | done v => exact (Plain.convert trivial v ret).isLocal.unlogged
  | suspend => exact fun m j => ⟨j, congrArg (Prod.mk _) (m.modifyFrame_logging j _)⟩
  | fault _ | crashed _ => exact .throw _

theorem callNative (span : Span) (id : NativeId) {f : NativeFn} (ret : Ty) (hf : f.Unlogged) :
    Unlogged (Exec.callNative span id f ret) := by
  intro m j
  have reply (phase : CallPhase) : (m.logging j).reply f phase = m.reply f phase :=
    hf ⟨m.own.operands, phase, Int32.ofInt m.own.index, m.heap, m.journal⟩ j
  have record (phase : CallPhase) (r : NativeReply) :
      ∃ k, (m.logging j).record id phase r = (m.record id phase r).logging k := by
    unfold Machine.record
    rw [m.modifyFrame_logging]
    exact ⟨_, rfl⟩
  rw [callNative_apply, callNative_apply]
  dsimp only
  rw [show (m.logging j).own = m.own from rfl, show (m.logging j).stop = m.stop from rfl]
  generalize callPhase m.own.state m.stop = phase
  obtain ⟨k, noted⟩ := record phase (m.reply f phase)
  rw [reply, noted]
  split
  · exact ⟨k, rfl⟩
  · exact answered _ _ _ _ k

variable {p : Program} {run : Instr → Exec Variable}

theorem turn (natives : ∀ f ∈ p.env.natives.natives, f.Unlogged) (deeper : ∀ c, Unlogged (run c)) (room : Nat)
    (i : Instr) : Unlogged (Exec.turn run p room i) := by
  intro m j
  -- The move is chosen by the frame. Whatever is not a native's is local, but for the budget.
  have plain := i.move_isPlain p m.own
  have inside := i.move_inside p m.own
  rw [turn_apply, turn_apply, show (m.logging j).own = m.own from rfl]
  generalize i.move p m.own = move at plain inside
  cases move with
  | run c follow =>
    refine bind (outcomeOf (deeper c)) (fun o => ?_) m j
    by_cases suspended : o = .error .suspended
    · rw [suspended, plain.1]
      exact .throw _
    · exact (plain.2 o suspended fun _ _ _ _ => trivial).isLocal.unlogged
  | pass span state index =>
    refine bind (bind (spend span) fun _ => ?_) (fun _ => .pure none) m j
    exact (Plain.setPosition state index).isLocal.unlogged
  | enter f => exact bind (isLocal_enterCallee i.span f room).unlogged (fun _ => .pure none) m j
  | invoke id f ret =>
    have known : f ∈ p.env.natives.natives := List.mem_of_getElem? inside
    exact bind (callNative i.span id ret (natives f known)) (fun v => .pure (some v)) m j
  | act action => exact (Plain.isLocal plain).unlogged m j

theorem turns (natives : ∀ f ∈ p.env.natives.natives, f.Unlogged) (deeper : ∀ c, Unlogged (run c)) (room : Nat)
    (i : Instr) (fuel : Nat) : Unlogged (Exec.turns run p room i fuel) := by
  induction fuel with
  | zero => exact .throw _
  | succ fuel ih =>
    refine .bind (turn natives deeper room i) fun o => ?_
    cases o with
    | some v => exact .pure v
    | none => exact ih

theorem form (natives : ∀ f ∈ p.env.natives.natives, f.Unlogged) (deeper : ∀ c, Unlogged (run c)) (room : Nat)
    (i : Instr) : Unlogged (Exec.form run p room i) :=
  fun m j => turns natives deeper room i _ m j

theorem leaf (i : Instr) : Unlogged (Exec.settle (Exec.leaf i)) := settle (Plain.leaf trivial).isLocal.unlogged

/-- Executing an instruction does the same whatever is in the journal. -/
theorem exec (natives : ∀ f ∈ p.env.natives.natives, f.Unlogged) (room : Nat) (i : Instr) :
    Unlogged (Exec.exec p room i) := by
  induction room generalizing i with
  | zero =>
    unfold Exec.exec
    split
    · exact leaf i
    · exact settle (.throw _)
  | succ room ih =>
    unfold Exec.exec
    split
    · exact leaf i
    · exact inFrame (form natives ih room i) i.id i.span

end Unlogged
end Exec

structure TickResult.SameUnlogged (r r' : TickResult) : Prop where
  tick : r.tick = r'.tick
  execution : r.execution = r'.execution
  heap : r.session.heap = r'.session.heap

namespace Program

variable {p : Program}

theorem conclude_logging (f : Function) (x : Execution Variable) (o : Except Interrupt Variable) (m : Machine)
    (k : Journal) : (conclude f x o (m.logging k)).SameUnlogged (conclude f x o m) := by
  unfold conclude
  rw [show (m.logging k).heap = m.heap from rfl]
  cases verdict f o m.heap <;> exact ⟨rfl, rfl, rfl⟩

theorem tick_unlogged (natives : ∀ f ∈ p.env.natives.natives, f.Unlogged) (x : Execution Variable) (h : Heap)
    (j k : Journal) : (p.tick x ⟨h, j⟩).SameUnlogged (p.tick x ⟨h, k⟩) := by
  have advances (f : Function) (y : Execution Variable) :
      (p.advance f y ⟨h, j⟩).SameUnlogged (p.advance f y ⟨h, k⟩) := by
    obtain ⟨l, same⟩ := Exec.Unlogged.exec natives p.env.limits.maxFrames f.body (p.machine y ⟨h, k⟩) j
    change Exec.exec p p.env.limits.maxFrames f.body (p.machine y ⟨h, j⟩) = _ at same
    unfold advance
    rw [same]
    obtain ⟨tick, execution, heap⟩ := conclude_logging f y _ _ l
    exact ⟨tick, execution, heap⟩
  unfold tick
  generalize result : p.prepare x ⟨h, j⟩ = r
  cases prepare_iff.1 result with
  | finished status =>
    rw [Prepares.eq (.finished status)]
    exact ⟨rfl, rfl, rfl⟩
  | faulted status =>
    rw [Prepares.eq (.faulted status)]
    exact ⟨rfl, rfl, rfl⟩
  | foreign running foreign =>
    rw [Prepares.eq (.foreign running foreign)]
    exact ⟨rfl, rfl, rfl⟩
  | refused running found own unrestored refused =>
    rw [Prepares.eq (.refused running found own unrestored refused)]
    exact ⟨rfl, rfl, rfl⟩
  | goes running found own restored =>
    rw [Prepares.eq (.goes running found own restored)]
    exact advances ..
  | accepted running found own unrestored accepted =>
    rw [Prepares.eq (.accepted running found own unrestored accepted)]
    exact advances ..

end Program
end Tickwise
