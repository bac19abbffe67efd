import Tickwise.Proofs.Execution.Suspended
set_option autoImplicit false

/-!
# Restoring what was read

The frames of an execution that was read are not marked, so of what was read, restoring accepts just the
executions whose frames are a path.
-/
namespace Tickwise

namespace Codec

/-- Whatever a reader yields satisfies a condition. -/
def Yields {α : Type} (read : Reader α) (P : α → Prop) : Prop :=
  ∀ input a rest, read.run input = .ok (a, rest) → P a

namespace Yields

variable {α β : Type} {P : β → Prop} {Q : α → Prop}

theorem any (read : Reader α) : Yields read fun _ => True := fun _ _ _ _ => trivial

theorem pure {b : β} (h : P b) : Yields (pure b) P := by
  intro input a rest hr
  cases hr
  exact h

theorem bind {read : Reader α} {f : α → Reader β} (first : Yields read Q)
    (second : ∀ a, Q a → Yields (f a) P) : Yields (read >>= f) P := by
  intro input b rest hr
  rw [StateT.run_bind] at hr
  cases hc : read.run input with
  | error e =>
    rw [hc] at hr
    cases hr
  | ok r =>
    rw [hc] at hr
    exact second r.1 (first input r.1 r.2 hc) r.2 b rest hr

theorem ite {c : Prop} [Decidable c] {read read' : Reader β} (h : Yields read P)
    (h' : Yields read' P) : Yields (if c then read else read') P := by
  split
  · exact h
  · exact h'

theorem readEach {read : Reader α} (h : Yields read Q) (count : Nat) :
    Yields (readEach read count) fun as => ∀ a ∈ as, Q a := by
  induction count with
  | zero => exact pure nofun
  | succ count ih =>
    exact bind h fun a ha => bind ih fun as has => pure (List.forall_mem_cons.2 ⟨ha, has⟩)

end Yields

theorem yields_readFrame (nodeCount : Nat) :
    Yields (readFrame nodeCount) fun f => f.live = false := by
  refine .bind (.any _) fun node _ => .ite nofun ?_
  refine .bind (.any _) fun state _ => .bind (.any _) fun index _ => .bind (.any _) fun flags _ => ?_
  exact .ite nofun (.bind (.any _) fun operands _ => .bind (.any _) fun locals _ => .pure rfl)

theorem yields_readFrames (p : Program) :
    Yields (readFrames p) fun frames => ∀ f ∈ frames, f.live = false :=
  .bind (.any _) fun count _ => .ite nofun ((yields_readFrame p.nodeCount).readEach count)

end Codec

open Codec in
theorem Program.yields_readExecution (p : Program) :
    Yields p.readExecution fun x => ∀ f ∈ x.frames, f.live = false := by
  refine .bind (.any _) fun programId _ => .ite nofun ?_
  refine .bind (.any _) fun entry _ => .bind (.any _) fun status _ => ?_
  refine .bind (.any _) fun result _ => .bind (.any _) fun fault _ => ?_
  exact .bind (yields_readFrames p) fun frames dead => .pure dead

theorem Heap.mapThread_mem {α β : Type} {f : α → Heap → β × Heap} {b : β} {as : List α} {h : Heap}
    (hb : b ∈ (mapThread f as h).1) : ∃ a ∈ as, ∃ h', b = (f a h').1 := by
  induction as generalizing h with
  | nil => cases hb
  | cons a as ih =>
    rcases List.mem_cons.1 hb with rfl | hb
    · exact ⟨a, List.mem_cons_self, h, rfl⟩
    · obtain ⟨a', ha, h', rfl⟩ := ih hb
      exact ⟨a', List.mem_cons_of_mem _ ha, h', rfl⟩

namespace Program

variable {p : Program} {x : Execution Variable}

theorem Loads.dead (h : p.Loads x) : ∀ f ∈ x.frames, f.live = false := by
  obtain ⟨bytes, heap, heap', loaded⟩ := h
  unfold load at loaded
  cases hr : p.readExecution.run bytes with
  | error e =>
    rw [hr] at loaded
    cases loaded
  | ok r =>
    rw [hr] at loaded
    cases loaded
    intro f hf
    obtain ⟨g, hg, h', rfl⟩ := Heap.mapThread_mem hf
    exact p.yields_readExecution bytes r.1 r.2 hr g hg

/-- Of the executions that were read from bytes, restoring accepts those whose frames are a path. It
changes nothing in them but marks. -/
theorem restore_iff_onPath {x : Execution Variable} {bytes : List UInt8} {h h' : Heap}
    (loaded : p.load bytes h = .ok (x, h')) :
    ((p.restore x).1 = none ↔ p.OnPath x) ∧
      ((p.restore x).1 = none →
        (p.restore x).2 = { x with frames := x.frames.map Frame.marked } ∧
          ∀ f ∈ (p.restore x).2.frames, f.live = true) := by
  have dead : ∀ f ∈ x.frames, f.live = false := Loads.dead ⟨bytes, h, h', loaded⟩
  have onPath : (p.restore x).1 = none → p.OnPath x := onPath_of_restore dead
  refine ⟨⟨onPath, fun path => by rw [path.restore]⟩, fun accepted => ?_⟩
  have restored := (onPath accepted).restore
  refine ⟨by rw [restored], fun f hf => ?_⟩
  rw [restored] at hf
  obtain ⟨g, _, rfl⟩ := List.mem_map.1 hf
  rfl

theorem restore_iff_onPath_looping : ∃ x h,
    looping.load (looping.ticked.save .empty).bytes .empty = .ok (x, h) ∧
      (looping.restore x).1 = none ∧ looping.OnPath x ∧
      (looping.restore x).2 = { x with frames := x.frames.map Frame.marked } := by
  have restored : (looping.load (looping.ticked.save .empty).bytes .empty).toOption.map
      (fun r => (looping.restore r.1).1) = some none := by decide +kernel
  cases loaded : looping.load (looping.ticked.save .empty).bytes .empty with
  | error e =>
    rw [loaded] at restored
    cases restored
  | ok r =>
    rw [loaded] at restored
    have accepted : (looping.restore r.1).1 = none := Option.some.inj restored
    have read : looping.load (looping.ticked.save .empty).bytes .empty = .ok (r.1, r.2) := loaded
    have exact_path := restore_iff_onPath read
    exact ⟨r.1, r.2, rfl, accepted, exact_path.1.1 accepted, (exact_path.2 accepted).1⟩

end Program
end Tickwise
