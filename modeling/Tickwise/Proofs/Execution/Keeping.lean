import Tickwise.Proofs.Codec.Execution
import Tickwise.Proofs.Execution.Restore
import Tickwise.Proofs.Machine.KeepingRuns
set_option autoImplicit false

/-!
# Ticks that keep a discipline
-/
namespace Tickwise

open Exec

namespace Discipline

variable {A : Discipline} {p : Program} {Before Amid : Nat → Instr → Machine → Prop} {x y : Execution Variable}
  {s : Session} {f : Function} {h k : Heap}

/-- All variables of an execution are admitted, and the storage of its session is as it is to be. -/
structure HoldsIn (A : Discipline) (x : Execution Variable) (h : Heap) : Prop where
  heap : A.Stored h
  frames : ∀ f ∈ x.frames, A.HoldsFrame h f
  result : ∀ v ∈ x.result, A.Admits h v

namespace HoldsIn

theorem machine (holds : A.HoldsIn x s.heap) (p : Program) : A.Holds (p.machine x s) :=
  ⟨holds.heap, nofun, holds.frames⟩

theorem stop (holds : A.HoldsIn x h) : A.HoldsIn x.requestStop h := ⟨holds.heap, holds.frames, holds.result⟩

theorem finish {v : Variable} (stored : A.Stored h) (hv : A.Admits h v) : A.HoldsIn (x.finish v) h := by
  refine ⟨stored, nofun, fun w hw => ?_⟩
  cases hw
  exact hv

theorem fail {e : RuntimeError} (stored : A.Stored h) (result : ∀ v ∈ x.result, A.Admits h v) :
    A.HoldsIn (x.fail e) h :=
  ⟨stored, nofun, result⟩

theorem of_marked (holds : A.HoldsIn x h) (frames : y.frames.map Frame.marked = x.frames.map Frame.marked)
    (result : y.result = x.result) : A.HoldsIn y h := by
  refine ⟨holds.heap, fun g hg => ?_, result ▸ holds.result⟩
  have mem := List.mem_map_of_mem (f := Frame.marked) hg
  rw [frames] at mem
  obtain ⟨f, hf, same⟩ := List.mem_map.1 mem
  obtain ⟨locals, operands⟩ := holds.frames f hf
  have sameLocals := congrArg Frame.locals same
  have sameOperands := congrArg Frame.operands same
  change f.locals = g.locals at sameLocals
  change f.operands = g.operands at sameOperands
  exact ⟨sameLocals ▸ locals, sameOperands ▸ operands⟩

end HoldsIn

theorem HoldsIn.slots (holds : A.HoldsIn x h) : ∀ v ∈ x.slots, A.Admits h v := by
  intro v hv
  rcases List.mem_append.1 hv with hv | hv
  · exact holds.result v (Option.mem_toList.1 hv)
  · obtain ⟨f, hf, hv⟩ := List.mem_flatMap.1 hv
    rcases List.mem_append.1 hv with hv | hv
    · exact (holds.frames f hf).operands v hv
    · exact (holds.frames f hf).locals v hv

theorem holdsIn_of_slots (stored : A.Stored h) (slots : ∀ v ∈ x.slots, A.Admits h v) : A.HoldsIn x h where
  heap := stored
  frames f hf :=
    have own (v : Variable) (hv : v ∈ f.slots) : A.Admits h v :=
      slots v (List.mem_append_right _ (List.mem_flatMap.2 ⟨f, hf, hv⟩))
    ⟨fun v hv => own v (List.mem_append_right _ hv), fun v hv => own v (List.mem_append_left _ hv)⟩
  result v hv := slots v (List.mem_append_left _ (Option.mem_toList.2 hv))

theorem Holds.slots {m : Machine} {f : Frame Variable} (holds : A.Holds m) (hf : f ∈ m.allFrames) :
    ∀ v ∈ f.slots, A.Admits m.heap v := by
  obtain ⟨locals, operands⟩ := holds.allFrames f hf
  exact List.forall_mem_append.2 ⟨operands, locals⟩

theorem result_restore (p : Program) (x : Execution Variable) : (p.restore x).2.result = x.result := by
  obtain ⟨_, _, _, marks⟩ := p.restore_marks x
  rw [marks]

theorem HoldsIn.restore (holds : A.HoldsIn x h) (p : Program) : A.HoldsIn (p.restore x).2 h :=
  holds.of_marked (p.map_marked_restore x) (result_restore p x)

theorem HoldsIn.prepare (holds : A.HoldsIn x h) (prepared : p.prepare x s = .inr (f, y)) : A.HoldsIn y h := by
  obtain ⟨_, _, ⟨_, rfl⟩ | ⟨_, restored⟩⟩ := Program.prepare_right prepared
  · exact holds
  · have after := holds.restore p
    rw [restored] at after
    exact after

theorem HoldsIn.idle {r : TickResult} (holds : A.HoldsIn x s.heap) (prepared : p.prepare x s = .inl r) :
    r.session = s ∧ A.HoldsIn r.execution s.heap ∧ ∀ v, r.tick = .finished v → A.Admits s.heap v := by
  cases Program.prepare_iff.1 prepared with
  | finished =>
    refine ⟨rfl, holds, fun v hv => ?_⟩
    cases hv
    cases result : x.result with
    | none => exact A.plain rfl trivial
    | some v => exact holds.result v result
  | faulted => exact ⟨rfl, holds, nofun⟩
  | foreign => exact ⟨rfl, .fail holds.heap holds.result, nofun⟩
  | refused _ _ _ _ refused =>
    have restored := holds.restore p
    rw [refused] at restored
    exact ⟨rfl, .fail restored.heap restored.result, nofun⟩

/-- A tick keeps the discipline, if what it executes is guided and what the function returns may be converted
to its result type. -/
theorem Guides.tick (guides : A.Guides p Before Amid) (holds : A.HoldsIn x s.heap)
    (before : ∀ f y, p.prepare x s = .inr (f, y) → Before p.env.limits.maxFrames f.body (p.machine y s))
    (returns : ∀ f y v m, p.prepare x s = .inr (f, y) →
      Executes p p.env.limits.maxFrames f.body (p.machine y s) (.error (.returned v), m) → A.Converts f.ret v) :
    A.Onward s.heap (p.tick x s).session.heap ∧
      A.HoldsIn (p.tick x s).execution (p.tick x s).session.heap ∧
      ∀ v, (p.tick x s).tick = .finished v → A.Admits (p.tick x s).session.heap v := by
  cases prepared : p.prepare x s with
  | inl r =>
    have same : p.tick x s = r := by
      unfold Program.tick
      rw [prepared]
    obtain ⟨session, holds, ended⟩ := holds.idle prepared
    rw [same, session]
    exact ⟨A.refl _, holds, ended⟩
  | inr fy =>
    obtain ⟨f, y⟩ := fy
    have held := holds.prepare prepared
    obtain ⟨⟨o, m⟩, run⟩ : ∃ r, Executes p p.env.limits.maxFrames f.body (p.machine y s) r :=
      ⟨_, executes_exec ..⟩
    obtain ⟨onward, after, ends⟩ := guides.executes run (before f y prepared) (held.machine p)
    have result : ∀ v ∈ y.result, A.Admits m.heap v := fun v hv => A.mono onward (held.result v hv)
    rw [Program.tick_of_prepare prepared run]
    unfold Program.conclude
    dsimp only
    split
    case h_1 => exact ⟨onward, ⟨after.heap, after.deeper, result⟩, nofun⟩
    case h_2 v finished =>
      have admits : A.Admits m.heap v := by
        rcases Program.finished_of_verdict finished with ⟨w, rfl, converted⟩ | ⟨_, rfl⟩
        · exact admits_convert ends (returns f y w m prepared run) converted
        · exact admits_temp _ _ trivial
      refine ⟨onward, .finish after.heap admits, fun w same => ?_⟩
      cases same
      exact admits
    case h_3 => exact ⟨onward, .fail after.heap result, nofun⟩

theorem Guides.handles_tick {i : Instr} {m : Machine} (guides : A.Guides p Before Amid) (holds : A.HoldsIn x s.heap)
    (before : ∀ f y, p.prepare x s = .inr (f, y) → Before p.env.limits.maxFrames f.body (p.machine y s))
    (h : p.Handles x s i m) : A.Holds m := by
  obtain ⟨f, y, prepared, handles⟩ := h
  exact guides.handles (before f y prepared) ((holds.prepare prepared).machine p) handles

theorem Guides.visits_tick {room : Nat} {i : Instr} {m m' : Machine} {v : Variable} (guides : A.Guides p Before Amid)
    (holds : A.HoldsIn x s.heap)
    (before : ∀ f y, p.prepare x s = .inr (f, y) → Before p.env.limits.maxFrames f.body (p.machine y s))
    (h : p.Visits x s room i m) (ended : exec p room i m = (.ok v, m')) : A.Admits m'.heap v := by
  obtain ⟨f, y, prepared, visits⟩ := h
  obtain ⟨before, held, _⟩ := guides.visits (before f y prepared) ((holds.prepare prepared).machine p) visits
  exact (guides.executes (executes_iff.2 ended) before held).ends

theorem holdsIn_of_start {id : FunctionId} {args : List Variable} (stored : A.Stored h)
    (hargs : ∀ v ∈ args, A.Admits h v)
    (converts : ∀ f, p.function? id = some f → ∀ q v, (q, v) ∈ f.params.zip args → A.Converts q.ty v)
    (start : p.startFunction? id args h = some x) : A.HoldsIn x h := by
  obtain ⟨f, params, found, bound, rfl⟩ := Program.begin_of_startFunction? start
  refine ⟨stored, List.forall_mem_singleton.2 ⟨?_, nofun⟩, nofun⟩
  exact admits_bindParams hargs (converts f found) bound

end Discipline
end Tickwise
