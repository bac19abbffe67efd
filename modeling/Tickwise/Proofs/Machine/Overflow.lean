import Tickwise.Proofs.Compile.Height
import Tickwise.Proofs.Machine.TwinRuns
set_option autoImplicit false

/-!
# Stack overflow

An execution that never comes to the limit on nested frames ends in the same way under a higher limit. A program can
catch the fault of the limit, so it does not matter whether an execution ends with it, but whether it is raised.
-/
namespace Tickwise

open Exec

/-- While `root` executes from the machine `m₀`, the limit on nested frames is reached: for an instruction, or for the
body of a function that is called. -/
inductive Exec.Overflows (p : Program) (depth : Nat) (root : Instr) (m₀ : Machine) : Prop
  | limit {i : Instr} {m : Machine} (visits : Visits p depth root m₀ 0 i m) (parts : i.isLeaf = false) :
    Overflows p depth root m₀
  | call {i : Instr} {f : Function} {m inside m' : Machine} (visits : Visits p depth root m₀ 1 i m)
    (entered : m.enter? i.id = some inside) (passes : Passes p 0 i inside m') (move : i.move p m'.own = .enter f)
    (raised : (enterCallee i.span f 0 m').1 = .error (.fault ⟨.stackOverflow, i.span⟩)) : Overflows p depth root m₀

variable {p : Program} {room : Nat} {i : Instr} {m m' inside : Machine}

namespace Exec

theorem enterCallee_more (span : Span) (f : Function) (more : Nat) (m : Machine) :
    (enterCallee span f 0 m).1 = .error (.fault ⟨.stackOverflow, span⟩) ∨
      enterCallee span f more m = enterCallee span f 0 m := by
  have taken : operands m = (.ok m.own.operands, m) := rfl
  obtain ⟨n, cleared⟩ : ∃ n, setOperands [] m = (.ok (), n) := ⟨_, rfl⟩
  unfold enterCallee
  simp only [bind_apply, taken, cleared]
  rw [checkCrash_apply]
  cases bindCrash? n.heap f.params m.own.operands with
  | some c => exact .inr rfl
  | none =>
    dsimp only
    rw [checkHeap_apply]
    cases bindParams n.heap f.params m.own.operands with
    | error fault => exact .inr rfl
    | ok params => exact .inl rfl

theorem Overflows.of_part {c : Instr} {follow : Except Interrupt Variable → Exec (Option Variable)}
    (entered : m.enter? i.id = some inside) (passes : Passes p room i inside m')
    (move : i.move p m'.own = .run c follow)
    (h : Overflows p room c m') : Overflows p (room + 1) i m := by
  have whole {r : Nat} {j : Instr} {n : Machine} (visits : Visits p room c m' r j n) :
      Visits p (room + 1) i m r j n := by
    induction visits with
    | root => exact .part .root entered passes move
    | part _ entered passes move ih => exact .part ih entered passes move
  cases h with
  | limit visits parts => exact .limit (whole visits) parts
  | call visits entered passes move raised => exact .call (whole visits) entered passes move raised

theorem turn_more (more : Nat)
    (parts : ∀ c follow, i.move p m.own = .run c follow → exec p (room + more) c m = exec p room c m)
    (calls : ∀ f, i.move p m.own = .enter f → room = 0 →
      (enterCallee i.span f 0 m).1 ≠ .error (.fault ⟨.stackOverflow, i.span⟩)) :
    turn (exec p (room + more)) p (room + more) i m = turn (exec p room) p room i m := by
  cases move : i.move p m.own with
  | run c follow => rw [turn_run move, turn_run move, parts c follow move]
  | enter f =>
    rw [turn_enter move, turn_enter move]
    cases room with
    | zero =>
      have entered := (enterCallee_more i.span f (0 + more) m).resolve_left (calls f move rfl)
      unfold goOn
      rw [bind_apply, bind_apply, entered]
    | succ room =>
      have entered : enterCallee i.span f (room + 1 + more) = enterCallee i.span f (room + 1) := by
        unfold enterCallee
        simp only [Nat.add_eq_zero_iff, Nat.succ_ne_zero, false_and]
      rw [entered]
  | pass span state index | invoke id f ret | act action =>
    rw [turn_apply, turn_apply, move]

theorem exec_more (more : Nat) (stays : ¬ Overflows p room i m) : exec p (room + more) i m = exec p room i m := by
  induction room generalizing i m with
  | zero =>
    by_cases whole : i.isLeaf = true
    · rw [exec_of_leaf whole, exec_of_leaf whole]
    · exact absurd (.limit .root (by simpa using whole)) stays
  | succ room ih =>
    by_cases whole : i.isLeaf = true
    · rw [exec_of_leaf whole, exec_of_leaf whole]
    · rw [Nat.succ_add]
      unfold exec inFrame
      rw [if_neg whole, if_neg whole]
      cases entered : m.enter? i.id with
      | none => rfl
      | some inside =>
        have same (fuel : Nat) {m' : Machine} (passes : Passes p room i inside m') :
            turns (exec p (room + more)) p (room + more) i fuel m' = turns (exec p room) p room i fuel m' := by
          induction fuel generalizing m' with
          | zero => rfl
          | succ fuel again =>
            have first : turn (exec p (room + more)) p (room + more) i m' = turn (exec p room) p room i m' := by
              refine turn_more more (fun c follow move => ?_) fun f move full raised => ?_
              · exact ih fun overflows => stays (.of_part entered passes move overflows)
              · subst full
                exact stays (.call .root entered passes move raised)
            unfold turns
            rw [bind_apply, bind_apply, first]
            rcases turned : turn (exec p room) p room i m' with ⟨_ | _ | v, m''⟩
            · rfl
            · exact again (passes.trans (.next turned .here))
            · rfl
        dsimp only
        unfold form
        exact congrArg leaveFrame (same _ .here)

end Exec

theorem Instr.move_ne_enter (other : ∀ callee args ret, i.form ≠ .call callee args ret) (p : Program)
    (f : Frame Variable)
    (g : Function) : i.move p f ≠ .enter g := by
  unfold Instr.move Move.ofBlock Move.ofDeclare Move.ofBranch Move.ofWhile Move.ofDoWhile Move.ofFor
    Move.ofSwitch Move.ofTry Move.ofStore Move.ofBinary Move.ofLogical Move.ofTernary Move.collect Move.sequence
    Move.eval
  intro move
  split at move
  · cases move
  · cases form : i.form with
    | call callee args ret => exact other callee args ret form
    | ret value =>
      rw [form] at move
      cases value <;> cases move
    | _ =>
      rw [form] at move
      dsimp only at move
      repeat' split at move
      all_goals cases move

/-- What is executed by an instruction without calls is no higher than the room for it. -/
theorem Visits.fits {depth : Nat} {root : Instr} {m₀ : Machine} (h : Visits p depth root m₀ room i m)
    (calm : ∀ j ∈ root.all, ∀ callee args ret, j.form ≠ .call callee args ret) (fits : root.Fits depth) :
    i.Fits room ∧ ∀ j ∈ i.all, ∀ callee args ret, j.form ≠ .call callee args ret := by
  induction h with
  | root => exact ⟨fits, calm⟩
  | part _ _ _ move ih =>
    obtain ⟨fits, calm⟩ := ih
    have part := Instr.part_of_run (calm _ (Instr.mem_all_self _)) move
    exact ⟨fits _ part, fun j hj => calm j (Instr.mem_all_of_part part hj)⟩

theorem Exec.not_overflows_of_fits (calm : ∀ j ∈ i.all, ∀ callee args ret, j.form ≠ .call callee args ret)
    (fits : i.Fits room) : ¬ Overflows p room i m := by
  rintro (⟨visits, -⟩ | ⟨visits, -, -, move, -⟩)
  · exact (visits.fits calm fits).1
  · exact Instr.move_ne_enter ((visits.fits calm fits).2 _ (Instr.mem_all_self _)) _ _ _ move
end Tickwise
