import Tickwise.Proofs.Execution.Budget
import Tickwise.Proofs.Machine.Invoked
import Tickwise.Proofs.Sight.Runs
set_option autoImplicit false

/-!
# Suspension and continuation

Where an instruction is suspended all around it are, and each leaves its frame behind as it is. So an execution that
goes on comes to the same instruction again, in the same frames, before it does anything else.
-/
namespace Tickwise

open Exec

variable {p q : Program} {depth room : Nat} {root i : Instr} {m m' m₀ n₀ : Machine}

theorem Machine.Reenters.suspend (framed : m.frames ≠ []) : m.Reenters m.suspend := by
  refine ⟨?_, rfl⟩
  obtain ⟨_ | ⟨f, fs⟩, deeper⟩ := m
  · exact absurd rfl framed
  · simp [allFrames, Machine.suspend, own]

theorem exec_of_suspended {c : Instr} {n inside : Machine} {follow : Except Interrupt Variable → Exec (Option Variable)}
    (entered : n.enter? i.id = some inside) (passes : Passes p room i inside m) (move : i.move p m.own = .run c follow)
    (suspended : exec p room c m = (.error .suspended, m')) :
    exec p (room + 1) i n = (.error .suspended, m'.suspend) := by
  have plain := i.move_isPlain p m.own
  rw [move] at plain
  have turned : turn (exec p room) p room i m = (.error .suspended, m') := by
    rw [turn_run move, suspended, plain.1]
    rfl
  rw [exec_of_passes (Instr.isLeaf_of_run move) entered passes turned]
  rfl

theorem own_of_part {c : Instr} {n inside : Machine} {o : Except Interrupt Variable} (entered : n.enter? i.id = some inside)
    (passes : Passes p room i inside m) (ended : exec p room c m = (o, m')) :
    m'.frames ≠ [] ∧ m'.own.node = i.id ∧ m'.own.live = true ∧ m'.own.bare = m.own.bare := by
  obtain ⟨f, deeper, node, live, rfl⟩ := Machine.enter?_frames entered
  have around := (executes_exec p room c m).around
  rw [ended] at around
  obtain ⟨framed, kind⟩ := (passes.inside.trans around.inside).own_kind (List.cons_ne_nil _ _)
  exact ⟨framed, (congrArg Prod.fst kind).trans node, (congrArg (fun k => k.2.2) kind).trans live, around.own⟩

/-- Where an instruction is suspended all around it are, with the same frames left behind. -/
theorem Visits.unwinds (h : Visits p depth root m₀ room i m) (suspended : exec p room i m = (.error .suspended, m')) :
    ∃ m'', exec p depth root m₀ = (.error .suspended, m'') ∧ m'.Reenters m'' := by
  induction h generalizing m' with
  | root => exact ⟨m', suspended, .refl m'⟩
  | part _ entered passes move ih =>
    obtain ⟨m'', ended, reenters⟩ := ih (exec_of_suspended entered passes move suspended)
    exact ⟨m'', ended, (Machine.Reenters.suspend (own_of_part entered passes suspended).1).trans reenters⟩

/-- An execution that goes on in the frames that were left behind comes to what was suspended, before it does
anything else. -/
theorem Visits.again (h : Visits p depth root m₀ room i m) (suspended : exec p room i m = (.error .suspended, m'))
    (same : ∀ i f, Instr.move q i f = i.move p f)
    (left : ∀ m'', exec p depth root m₀ = (.error .suspended, m'') → n₀.frames = m''.frames ∧ n₀.deeper = m''.deeper) :
    ∃ n, Visits q depth root n₀ room i n ∧ n₀.Reenters n ∧ n.frames = m'.frames ∧ n.deeper = m'.deeper := by
  -- Each frame that was left behind is taken up again by the instruction that left it, which then moves as before.
  induction h generalizing m' with
  | root => exact ⟨n₀, .root, .refl n₀, left m' suspended⟩
  | @part room i c k inside m follow _ entered passes move ih =>
    obtain ⟨n, visits, reenters, frames, deeper⟩ := ih (exec_of_suspended entered passes move suspended)
    obtain ⟨framed, node, live, bare⟩ := own_of_part entered passes suspended
    have whole : m'.own :: m'.suspend.frames = m'.frames := by
      unfold Machine.own Machine.suspend
      cases hf : m'.frames with
      | nil => exact absurd hf framed
      | cons f fs => rfl
    have entered' : n.enter? i.id = some { n with frames := m'.frames, deeper := m'.deeper } := by
      rw [Machine.enter?_of_cons deeper node live, frames, whole]
    have move' : i.move q m'.own = .run c follow := by
      rw [same, Instr.move_congr bare]
      exact move
    refine ⟨_, .part visits entered' .here move', reenters.trans ⟨?_, rfl⟩, rfl, rfl⟩
    unfold Machine.allFrames
    rw [frames, deeper]
    change _ = (m'.own :: m'.deeper).reverse ++ m'.suspend.frames
    rw [List.reverse_cons, List.append_assoc, List.singleton_append, whole]

end Tickwise
