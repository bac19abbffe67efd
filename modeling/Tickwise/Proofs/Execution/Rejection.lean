import Tickwise.Compile.Unit
import Tickwise.Execution.Tick
import Tickwise.Proofs.Codec.Bytes
import Tickwise.Proofs.Compile.Comparison
import Tickwise.Proofs.Execution.Paths
set_option autoImplicit false

/-!
# Executions that restoring refuses

Restoring marks a frame before it knows whether its position is one that the program has. An error that is
found at the last frame comes too late: all frames are marked by then, and the next tick takes the execution
for a restored one. After every other error a frame is left unmarked, and the next tick refuses again.
-/
namespace Tickwise

namespace Program

variable {p : Program} {i : Instr} {frames : List (Frame Variable)} {x y : Execution Variable}

inductive Broken (p : Program) : Instr → List (Frame Variable) → Prop
  | invalid {i : Instr} {f : Frame Variable} (node : f.node = i.id)
      (lost : i.waiting f.state f.index = .invalid) : Broken p i [f]
  | missing {i : Instr} {id : FunctionId} {f : Frame Variable} (node : f.node = i.id)
      (waits : i.waiting f.state f.index = .callee id) : Broken p i [f]
  | child {i c : Instr} {f g : Frame Variable} {rest : List (Frame Variable)} (node : f.node = i.id)
      (waits : i.waiting f.state f.index = .child c) (parts : c.isLeaf = false)
      (inner : Broken p c (g :: rest)) : Broken p i (f :: g :: rest)
  | callee {i : Instr} {id : FunctionId} {h : Function} {f g : Frame Variable} {rest : List (Frame Variable)}
      (node : f.node = i.id) (waits : i.waiting f.state f.index = .callee id)
      (found : p.function? id = some h) (call : g.call = true)
      (inner : Broken p h.body (g :: rest)) : Broken p i (f :: g :: rest)

/-- The frames of an execution are broken at the last one, from the function that was started on. -/
def BrokenOff (p : Program) (x : Execution Variable) : Prop :=
  ∃ f own rest, p.function? x.entry = some f ∧ x.frames = own :: rest ∧ own.call = true ∧
    Broken p f.body (own :: rest)

theorem live_restoreFrames_iff {depth : Nat} {e : RestoreError} {restored : List (Frame Variable)}
    (dead : ∀ f ∈ frames, f.live = false) (refused : p.restoreFrames i depth frames = (some e, restored)) :
    (∀ f ∈ restored, f.live = true) ↔ Broken p i frames := by
  induction frames generalizing i depth restored with
  | nil => cases refused
  | cons f rest ih =>
    obtain ⟨own_dead, rest_dead⟩ := List.forall_mem_cons.1 dead
    -- where restoring stops at this frame, the frames beneath it stay unmarked
    have stops : (∀ g ∈ f.marked :: rest, g.live = true) ↔ rest = [] := by
      constructor
      · exact fun live => eq_nil_of_live rest_dead (List.forall_mem_cons.1 live).2
      · rintro rfl
        exact List.forall_mem_singleton.2 rfl
    cases restoreFrames_cons_iff.1 refused with
    | mismatch other =>
      refine iff_of_false (fun live => ?_) fun broken => ?_
      · simpa [own_dead] using live f List.mem_cons_self
      · cases broken <;> exact other ‹_›
    | invalid node lost =>
      rw [stops]
      constructor
      · rintro rfl
        exact .invalid node lost
      · intro broken
        cases broken <;> simp_all
    | unknown node waits missing =>
      rw [stops]
      constructor
      · rintro rfl
        exact .missing node waits
      · intro broken
        cases broken <;> simp_all
    | uncalled node waits found alone =>
      rw [stops]
      constructor
      · rintro rfl
        exact .missing node waits
      · intro broken
        cases broken <;> simp_all
    | child node waits parts result =>
      rw [List.forall_mem_cons, and_iff_right (show f.marked.live = true from rfl), ih rest_dead result]
      cases rest with
      | nil => cases result
      | cons g rest =>
        constructor
        · exact .child node waits parts
        · intro broken
          cases broken <;> simp_all
    | callee node waits found entered result =>
      rw [List.forall_mem_cons, and_iff_right (show f.marked.live = true from rfl), ih rest_dead result]
      cases rest with
      | nil => cases entered
      | cons g rest =>
        constructor
        · exact .callee node waits found entered
        · intro broken
          cases broken <;> simp_all

theorem restoreFrames_again (p : Program) (i : Instr) (depth : Nat) (frames : List (Frame Variable)) :
    p.restoreFrames i depth (p.restoreFrames i depth frames).2 = p.restoreFrames i depth frames := by
  induction frames generalizing i depth with
  | nil => rfl
  | cons f rest ih =>
    generalize checked : p.restoreFrames i depth (f :: rest) = r
    cases restoreFrames_cons_iff.1 checked with
    | mismatch => exact checked
    | last node known settled bare => exact Checks.eq (.last node known settled bare)
    | invalid node lost => exact Checks.eq (.invalid node lost)
    | unknown node waits missing => exact Checks.eq (.unknown node waits missing)
    | uncalled node waits found alone => exact Checks.eq (.uncalled node waits found alone)
    | @child c _ _ node waits parts result =>
      have again := ih c (depth + 1)
      rw [result] at again
      exact Checks.eq (.child node waits parts again)
    | @callee id h _ _ node waits found entered result =>
      have again := ih h.body (depth + 1)
      have calls := any_head_call (p.map_call_restoreFrames h.body (depth + 1) rest)
      rw [result] at again calls
      exact Checks.eq (.callee node waits found (calls.trans entered) again)

theorem restore_again {error : Option RestoreError} (h : p.restore x = (error, y)) : p.restore y = (error, y) := by
  cases restore_iff_verifies.1 h with
  | idle => exact h
  | unknown => exact h
  | uncalled => exact h
  | @checked g f rest restored _ frames found call result =>
    have kept := p.map_call_restoreFrames g.body 0 x.frames
    have again := p.restoreFrames_again g.body 0 x.frames
    rw [result, frames] at kept
    rw [result] at again
    cases restored with
    | nil => cases kept
    | cons f' rest' =>
      have verified : Verifies p { x with frames := f' :: rest' } _ :=
        .checked rfl found ((List.cons.inj kept).1.trans call) again
      exact verified.eq

theorem Broken.refused (h : Broken p i frames) (depth : Nat) : (p.restoreFrames i depth frames).1 ≠ none := by
  induction h generalizing depth with
  | invalid node lost =>
    rw [Checks.eq (.invalid node lost)]
    nofun
  | @missing i id f node waits =>
    cases found : p.function? id with
    | none =>
      rw [Checks.eq (.unknown node waits found)]
      nofun
    | some h =>
      rw [Checks.eq (.uncalled node waits found rfl)]
      nofun
  | child node waits parts inner ih =>
    rw [Checks.eq (.child node waits parts rfl)]
    exact ih (depth + 1)
  | @callee i id h f g rest node waits found call inner ih =>
    have checked : Checks p i depth f (g :: rest) _ := .callee node waits found call rfl
    rw [checked.eq]
    exact ih (depth + 1)

theorem isRestored_restore_iff {e : RestoreError} (dead : ∀ f ∈ x.frames, f.live = false)
    (refused : p.restore x = (some e, y)) : y.isRestored = true ↔ p.BrokenOff x := by
  rw [Execution.isRestored, List.all_eq_true]
  have unmarked (none : x.frames ≠ []) : ¬ ∀ f ∈ x.frames, f.live = true :=
    fun live => none (eq_nil_of_live dead live)
  generalize result : (some e, y) = r at refused
  cases restore_iff_verifies.1 refused with
  | idle => cases result
  | unknown frames missing =>
    cases result
    refine iff_of_false (unmarked (by simp [frames])) ?_
    rintro ⟨f, _, _, found, _⟩
    cases missing.symm.trans found
  | uncalled frames found call =>
    cases result
    refine iff_of_false (unmarked (by simp [frames])) ?_
    rintro ⟨_, _, _, _, frames', call', _⟩
    cases frames.symm.trans frames'
    cases call.symm.trans call'
  | @checked f own rest restored error frames found call inner =>
    have brokenOff : p.BrokenOff x ↔ Broken p f.body x.frames := by
      constructor
      · rintro ⟨_, _, _, found', frames', _, broken⟩
        cases found.symm.trans found'
        rwa [frames']
      · intro broken
        exact ⟨f, own, rest, found, frames, call, frames ▸ broken⟩
    obtain ⟨left, rfl⟩ := Prod.mk.inj result
    rw [brokenOff]
    cases error with
    | some _ => exact live_restoreFrames_iff dead inner
    | none =>
      -- a frame was left out
      refine iff_of_false (fun live => ?_) fun broken => broken.refused 0 (by rw [inner])
      rw [Option.none_or, unreached_eq_none.2 live] at left
      cases left

open Codec in
theorem programId_readExecution (p : Program) : Yields p.readExecution fun x => x.programId = p.id := by
  refine .bind (.any _) fun programId _ => ?_
  split
  · exact nofun
  · next same =>
    refine .bind (.any _) fun entry _ => .bind (.any _) fun status _ => ?_
    refine .bind (.any _) fun result _ => .bind (.any _) fun fault _ => ?_
    exact .bind (.any _) fun frames _ => .pure (Decidable.not_not.1 same)

/-- A tick is over before anything is executed, with the fault that the execution is not restored. -/
def Refuses (p : Program) (x : Execution Variable) (s : Session) : Prop :=
  ∃ r span, p.prepare x s = .inl r ∧ p.tick x s = r ∧ r.tick = .faulted ⟨.notRestored, span⟩ ∧
    r.session = s ∧ r.steps = 0

theorem refuses_of_restore {e : RestoreError} (s : Session) (running : x.status.isOver = false)
    (unrestored : x.isRestored = false) (refused : p.restore x = (some e, y)) : p.Refuses x s := by
  have stops : ∃ r span, p.prepare x s = .inl r ∧ r.tick = .faulted ⟨.notRestored, span⟩ ∧ r.session = s ∧
      r.steps = 0 := by
    obtain ⟨r, prepares⟩ := exists_prepares p x s
    cases prepares with
    | finished status => simp [status, Status.isOver] at running
    | faulted status => simp [status, Status.isOver] at running
    | foreign _ foreign => exact ⟨_, _, Prepares.eq (.foreign running foreign), rfl, rfl, rfl⟩
    | refused _ found own _ error => exact ⟨_, _, Prepares.eq (.refused running found own unrestored error), rfl, rfl, rfl⟩
    | goes _ _ _ restored => cases unrestored.symm.trans restored
    | accepted _ _ _ _ accepted => cases refused.symm.trans accepted
  obtain ⟨r, span, stopped, outcome⟩ := stops
  exact ⟨r, span, stopped, by rw [tick, stopped], outcome⟩

theorem Loads.programId (h : p.Loads x) : x.programId = p.id := by
  obtain ⟨bytes, heap, heap', loaded⟩ := h
  unfold load at loaded
  cases hr : p.readExecution.run bytes with
  | error e =>
    rw [hr] at loaded
    cases loaded
  | ok r =>
    rw [hr] at loaded
    cases loaded
    exact p.programId_readExecution bytes r.1 r.2 hr

theorem programId_restore {error : Option RestoreError} (h : p.restore x = (error, y)) :
    y.programId = x.programId := by
  rw [frames_restore h]

theorem not_isRestored_of_refused {e : RestoreError} (dead : ∀ f ∈ x.frames, f.live = false)
    (refused : p.restore x = (some e, y)) : x.isRestored = false := by
  refine Bool.eq_false_iff.2 fun live => ?_
  have empty : x.frames = [] := eq_nil_of_live dead (List.all_eq_true.1 live)
  rw [Verifies.eq (.idle empty)] at refused
  cases refused

theorem tick_of_isRestored {f : Function} (running : x.status.isOver = false) (own : x.programId = p.id)
    (found : p.function? x.entry = some f) (marked : x.isRestored = true) (s : Session) :
    p.tick x s = p.advance f x s := by
  rw [tick, Prepares.eq (.goes running found own marked)]

/-- Whenever restoring refuses an execution that was loaded, a tick of the execution as it was loaded executes
nothing. After the refusal, the same holds and no frame is lost sight of, unless the frames are broken off at the
last one: these are all marked, and then a tick executes what they hold. -/
theorem refused_unless_brokenOff {bytes : List UInt8} {h k : Heap} {e : RestoreError}
    (load : p.load bytes h = .ok (x, k)) (unfinished : x.status = .ready ∨ x.status = .suspended)
    (refused : p.restore x = (some e, y)) (s : Session) :
    p.Refuses x s ∧ (y.isRestored = true ↔ p.BrokenOff x) ∧ (¬ p.BrokenOff x → p.Refuses y s) ∧
      (p.BrokenOff x → ∃ f, p.function? x.entry = some f ∧ p.tick y s = p.advance f y s) := by
  have dead : ∀ f ∈ x.frames, f.live = false := Loads.dead ⟨bytes, h, k, load⟩
  have running : x.status.isOver = false := by rcases unfinished with h | h <;> rw [h] <;> rfl
  obtain ⟨entry, status, _⟩ := entry_restore refused
  have marks := isRestored_restore_iff dead refused
  have before : x.isRestored = false := not_isRestored_of_refused dead refused
  refine ⟨refuses_of_restore s running before refused, marks, fun whole => ?_, fun broken => ?_⟩
  · have unrestored : y.isRestored = false := Bool.eq_false_iff.2 fun live => whole (marks.1 live)
    exact refuses_of_restore s (status ▸ running) unrestored (restore_again refused)
  · have started := broken
    obtain ⟨f, _, _, found, _⟩ := started
    have own : y.programId = p.id := (programId_restore refused).trans (Loads.programId ⟨bytes, h, k, load⟩)
    exact ⟨f, found, tick_of_isRestored (status ▸ running) own (entry ▸ found) (marks.2 broken) s⟩

/-!
One call of a native is loaded with the frame of its block in a state that blocks do not have, and with a frame
of another instruction.
-/
namespace Refused

def environment : Environment :=
  { Environment.empty with natives := ⟨[⟨"beep", [], .void, fun c => ⟨.done Slot.ofVoid, c.state, c.heap, []⟩⟩]⟩ }

def body : Instr := .mk 1 ⟨12, 13⟩ (.block [.mk 0 ⟨14, 18⟩ (.call (.native 0) [] .void)])

def program : Program := ⟨"test", [⟨0, "main", [], .void, body, false, ⟨5, 9⟩⟩], [], 2, environment⟩

theorem compiled : ofSource "test" environment "void main() { beep(); }" = .ok program :=
  ofSource_eq 20 (by decide +kernel) rfl

def saved (node state : UInt8) : List UInt8 :=
  [4, 0, 0, 0, 116, 101, 115, 116, 0, 0, 0, 0, 0, 0, 0, 0, 1, 0, 0, 0, node, 0, 0, 0, state, 0, 0, 0, 0, 0, 3, 0,
    0, 0, 0, 0, 0, 0, 0, 0]

/-- Refused for its state, the execution is ticked, and the native is invoked. -/
theorem executes_invalid : ofSource "test" environment "void main() { beep(); }" = .ok program ∧ ∃ x k y,
    program.load (saved 1 5) .empty = .ok (x, k) ∧ x.status = .ready ∧
      program.restore x = (some (.badPosition 0 5 0), y) ∧ y.isRestored = true ∧
      (program.tick y ⟨k, .empty⟩).tick = .finished Slot.ofVoid ∧
      (program.tick y ⟨k, .empty⟩).session.journal.invocations.length = 1 := by
  have loads : (program.load (saved 1 5) .empty).toOption.any (fun (x, k) =>
      let y := (program.restore x).2
      x.status = .ready ∧ (program.restore x).1 = some (.badPosition 0 5 0) ∧ y.isRestored = true ∧
        (program.tick y ⟨k, .empty⟩).tick = .finished Slot.ofVoid ∧
        (program.tick y ⟨k, .empty⟩).session.journal.invocations.length = 1) = true := by decide +kernel
  obtain ⟨⟨x, k⟩, load, runs⟩ := ok_of_any loads
  obtain ⟨ready, refused, marked, finished, invoked⟩ := of_decide_eq_true runs
  exact ⟨compiled, x, k, _, load, ready, Prod.ext refused rfl, marked, finished, invoked⟩

theorem refused_unless_brokenOff_mismatch : ∃ x k y,
    program.load (saved 0 0) .empty = .ok (x, k) ∧ x.status = .ready ∧
      program.restore x = (some (.frameMismatch 0 1 0), y) ∧ ¬ program.BrokenOff x ∧
      program.Refuses x ⟨k, .empty⟩ ∧ program.Refuses y ⟨k, .empty⟩ := by
  have loads : (program.load (saved 0 0) .empty).toOption.any (fun (x, _) =>
      x.status = .ready ∧ (program.restore x).1 = some (.frameMismatch 0 1 0) ∧
        ¬ (program.restore x).2.isRestored = true) = true := by decide +kernel
  obtain ⟨⟨x, k⟩, load, runs⟩ := ok_of_any loads
  obtain ⟨ready, refused, unmarked⟩ := of_decide_eq_true runs
  have refused : program.restore x = (some (.frameMismatch 0 1 0), (program.restore x).2) := Prod.ext refused rfl
  obtain ⟨before, marks, after, _⟩ := refused_unless_brokenOff load (.inl ready) refused ⟨k, .empty⟩
  have whole : ¬ program.BrokenOff x := fun broken => unmarked (marks.2 broken)
  exact ⟨x, k, _, load, ready, refused, whole, before, after whole⟩

end Refused

end Program
end Tickwise
