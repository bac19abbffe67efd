import Tickwise.Proofs.Machine.Positions
set_option autoImplicit false

/-!
# The turns of an execution suffice

`Exec.exec` makes a bounded number of turns. It always gets as far as it would without the bound,
because each step is off the budget and the rank bounds the turns between two of them.
-/
namespace Tickwise

open Exec

theorem length_le_flatMap_pair {α β : Type} (f g : α → β) (items : List α) :
    items.length ≤ (items.flatMap fun a => [f a, g a]).length := by
  induction items with
  | nil => exact Nat.le_refl _
  | cons a items ih =>
    rw [List.flatMap_cons, List.length_append, List.length_cons]
    exact Nat.le_trans (Nat.succ_le_succ ih) (by simp only [List.length_cons, List.length_nil]; omega)

theorem Form.rank_le {ι : Type} (form : Form ι) (state : Nat) (index : Int) :
    form.rank state index ≤ form.children.length + 3 := by
  have entries {α : Type} (items : List α) (n : Int) := entriesFrom_le items n
  have clauses (catches : List (Catch ι)) := length_le_flatMap_pair Catch.filter Catch.handler catches
  unfold rank
  split <;> simp only [children, List.length_append, List.length_cons, List.length_nil] <;> grind

theorem Instr.rank_lt (i : Instr) (f : Frame Variable) : i.rank f < turnBound i := by
  have le := i.form.rank_le f.state f.index
  unfold rank turnBound children
  split <;> omega

variable {run : Instr → Exec Variable} {p : Program} {room : Nat} {i : Instr}

/-- With fuel for the turns of the position, and as many again for each step of the budget, all turns
are made. -/
theorem turns_of_fuel (around : ∀ c (m : Machine), m.Around (run c m).2) {fuel : Nat} {m : Machine}
    (hm : m.frames ≠ []) (enough : turnBound i * m.budget + i.rank m.own < fuel) :
    Turns (fun c m r => run c m = r) p room i m (turns run p room i fuel m) := by
  induction fuel generalizing m with
  | zero => omega
  | succ fuel ih =>
    have around' : ∀ c m r, run c m = r → m.Around r.2 := fun c m _ hr => hr ▸ around c m
    have first : Turn (fun c m r => run c m = r) p room i m (turn run p room i m) := turn_eq_iff.1 rfl
    unfold turns
    rw [bind_apply]
    generalize turn run p room i m = r at first ⊢
    obtain ⟨_ | _ | v, m'⟩ := r
    · exact .left first
    · refine .next first (ih ((first.inside around').own_kind hm).1 ?_)
      have budget : m'.budget ≤ m.budget := (first.inside around').budget_le
      have rank := i.rank_lt m'.own
      rcases (first.continues around' hm).less with less | less
      · have turns := Nat.mul_le_mul_left (turnBound i) (Nat.succ_le_of_lt less)
        rw [Nat.mul_succ] at turns
        omega
      · have turns := Nat.mul_le_mul_left (turnBound i) budget
        omega
    · exact .done first

/-- Executing an instruction leads to what it would lead to with no bound on the turns. -/
theorem executes_exec (p : Program) (room : Nat) (i : Instr) (m : Machine) :
    Executes p room i m (exec p room i m) := by
  induction room generalizing i m with
  | zero =>
    cases hl : i.isLeaf with
    | true => simp [Executes, exec, hl]
    | false => simp [Executes, exec, hl]
  | succ room ih =>
    unfold exec
    cases hl : i.isLeaf with
    | true => exact (Executes.of_leaf hl).2 rfl
    | false =>
      rw [if_neg Bool.false_ne_true]
      unfold inFrame
      cases hm : m.enter? i.id with
      | none => exact (Executes.of_not_restored hl hm).2 rfl
      | some inside =>
        obtain ⟨f, deeper, _, _, hi⟩ := m.enter?_frames hm
        have enough : turnBound i * inside.budget + i.rank inside.own <
            turnBound i * (inside.budget + 1) := by
          rw [Nat.mul_succ]
          exact Nat.add_lt_add_left (i.rank_lt _) _
        have turns : Turns (fun c m r => exec p room c m = r) p room i inside
            (form (exec p room) p room i inside) :=
          turns_of_fuel (fun c m => (ih c m).around) (by rw [hi]; exact List.cons_ne_nil _ _) enough
        have deeper : ∀ c m r, exec p room c m = r → Executes p room c m r :=
          fun c m _ hr => hr ▸ ih c m
        exact (Executes.of_enter hl hm).2 ⟨_, turns.mono deeper, rfl⟩

theorem executes_iff {m : Machine} {r : Result Variable} :
    Executes p room i m r ↔ exec p room i m = r := by
  refine ⟨fun h => (executes_exec p room i m).unique h, ?_⟩
  rintro rfl
  exact executes_exec p room i m

end Tickwise
