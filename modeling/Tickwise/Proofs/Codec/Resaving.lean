import Tickwise.Proofs.Codec.Canonical
import Tickwise.Proofs.Codec.Execution
set_option autoImplicit false

/-!
# Saving again what was loaded

What is loaded from a saved execution, whatever bytes stand behind it, has the same positions and holds the
same, so it is saved with the same bytes.
-/
namespace Tickwise

theorem Fault.code_ofCode (c : Int32) : (Fault.ofCode c).code = c := by
  unfold Fault.ofCode
  simp only
  generalize [divisionByZero, uninitialized, nullReference, indexOutOfRange, negativeSize, stackOverflow,
    missingReturn, stopped, notRestored, arrayTooLarge, stringTooLong] = reserved
  cases found : reserved.find? fun fault => fault.code = c with
  | none => rfl
  | some fault =>
    have same := List.find?_some found
    exact of_decide_eq_true same

namespace Codec

variable {h k : Heap}

theorem runtimeError_reread (e : RuntimeError) : runtimeError e.reread = runtimeError e := by
  unfold runtimeError RuntimeError.reread
  rw [Fault.code_ofCode]

theorem frame_congr {f g : Frame Variable} (alike : f.Alike (h.SameContent k) g) : frame h f = frame k g := by
  have flags : frameFlags f = frameFlags g := by rw [frameFlags, alike.scope, alike.call, frameFlags]
  have operands := list_congr (alike.operands.imp fun _ _ => slot_of_sameContent)
  have locals := list_congr (alike.locals.imp fun _ _ => slot_of_sameContent)
  rw [frame, frame, alike.node, alike.state, alike.index, flags, operands, locals]

end Codec

namespace Execution

open Codec

variable {x y : Execution Variable} {h k : Heap}

theorem save_congr (alike : x.Alike (h.SameContent k) y) : x.save h = y.save k := by
  have frames := list_congr (alike.frames.imp fun _ _ => frame_congr)
  have result : option (slot h) x.result = option (slot k) y.result := by
    have same := alike.result
    generalize x.result = v at same
    generalize y.result = w at same
    cases same with
    | none => exact Eq.refl (Codec.bool false)
    | some same => exact congrArg (Codec.bool true >> ·) (slot_of_sameContent same)
  unfold save
  rw [alike.programId, alike.entry, alike.status, alike.fault, result, frames]

theorem save_reread (x : Execution Variable) (h : Heap) : x.reread.save h = x.save h := by
  have fault : option runtimeError x.reread.fault = option runtimeError x.fault := by
    unfold reread
    cases x.fault with
    | none => rfl
    | some e => exact congrArg (Codec.bool true >> ·) (runtimeError_reread e)
  have frames : list (frame h) x.reread.frames = list (frame h) x.frames := by
    change list (frame h) (x.frames.map Frame.unmarked) = _
    refine list_congr (List.forall₂_map_left_iff.2 (List.forall₂_same.2 fun f _ => rfl))
  unfold save
  rw [fault, frames]
  rfl

end Execution

namespace Program

/-- From the bytes of a saved execution, and whatever follows them, just the same execution is loaded: it
leaves what follows, its positions are the same, and its variables hold the same in storage of their own. No
frame is live, and it is saved with the same bytes again. -/
theorem load_faithful (p : Program) (x : Execution Variable) (h k : Heap) (bytes rest : List UInt8)
    (y : Execution Variable) (k' : Heap) (saved : (x.save h).toExcept = .ok bytes)
    (loaded : p.load (bytes ++ rest) k = .ok (y, k')) :
    (∃ t, p.readExecution.run (bytes ++ rest) = .ok (t, rest) ∧ k.plantExecution t = (y, k')) ∧
      x.reread.Alike (h.SameContent k') y ∧ (∀ f ∈ y.frames, f.live = false) ∧
      (y.save k').toExcept = .ok bytes := by
  obtain ⟨noError, same'⟩ := Codec.ok_of_toExcept saved
  subst same'
  by_cases readable : x.Readable p h
  · obtain ⟨t, alike, run⟩ := (p.readsBack_execution h x).accepts noError readable rest
    unfold load at loaded
    rw [run] at loaded
    have planted : k.plantExecution t = (y, k') := Except.ok.inj loaded
    have same : x.reread.Alike (h.SameContent k') y := by
      have same := alike.plant k fun _ _ _ => Heap.sameContent_of_shows (k := (k.plantExecution t).2)
      rwa [planted] at same
    have marks : ∀ f ∈ y.frames, f.live = false := by
      intro f hf
      obtain ⟨g, hg, alike⟩ := forall₂_exists_left same.frames hf
      obtain ⟨_, _, rfl⟩ := List.mem_map.1 hg
      exact alike.live.symm
    have again : y.save k' = x.save h := by rw [← Execution.save_congr same, Execution.save_reread]
    exact ⟨⟨t, run, planted⟩, same, marks, by rw [again, saved]⟩
  · obtain ⟨e, run⟩ := (p.readsBack_execution h x).refuses noError readable rest
    unfold load at loaded
    rw [run] at loaded
    cases loaded

/-- A called function with a variable, and in it an instruction that has an array among its operands. -/
def paused : Execution Variable :=
  ⟨"p", 0, .suspended, [⟨0, 0, -1, [], [(Slot.ofFloat ⟨0x7FC00001⟩).declaredAs "x" 1], true, true, true⟩,
    ⟨2, 1, 3, [Slot.temp (.array .int) (.array 0)], [], false, false, false⟩], none, none, true⟩

theorem load_faithful_paused :
    let p : Program := ⟨"p", [], [], 3, Environment.empty⟩
    let h : Heap := ⟨#[#[Slot.ofInt 7, Slot.fresh .int]]⟩
    ∃ bytes y k, (paused.save h).toExcept = .ok bytes ∧ p.load (bytes ++ [1]) h = .ok (y, k) ∧
      paused.reread.Alike (h.SameContent k) y ∧ (y.save k).toExcept = .ok bytes := by
  intro p h
  have noError : (paused.save h).error = none := by decide +kernel
  have saved : (paused.save h).toExcept = .ok (paused.save h).bytes := by
    rw [Written.toExcept, noError]
  have some : (p.load ((paused.save h).bytes ++ [1]) h).isOk = true := by decide +kernel
  cases loaded : p.load ((paused.save h).bytes ++ [1]) h with
  | error e =>
    rw [loaded] at some
    cases some
  | ok y =>
    obtain ⟨_, alike, _, again⟩ := load_faithful p paused h h _ [1] y.1 y.2 saved loaded
    exact ⟨_, _, _, saved, loaded, alike, again⟩

end Program
end Tickwise
