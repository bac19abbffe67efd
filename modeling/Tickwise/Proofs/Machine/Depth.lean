import Tickwise.Proofs.Machine.Turns
set_option autoImplicit false

/-!
# The depth of frames

Executing an instruction leaves no more frames beneath the ones around it than may be nested there.
-/
namespace Tickwise

open Exec

/-- A computation that leaves at most `room` frames beneath, if there were no more. -/
def Exec.StaysWithin {α : Type} (room : Nat) (c : Exec α) : Prop :=
  ∀ m : Machine, m.deeper.length ≤ room → (c m).2.deeper.length ≤ room

namespace Exec.StaysWithin

variable {α β : Type} {room : Nat} {c : Exec α}

theorem plain (h : Plain (fun _ => True) c) : StaysWithin room c := by
  intro m hm
  have same := congrArg List.length (h.map_bare_deeper m)
  rw [List.length_map, List.length_map] at same
  rwa [same]

end Exec.StaysWithin

variable {run : Instr → Machine → Result Variable → Prop} {p : Program} {room : Nat} {i : Instr}
  {m : Machine}

theorem Machine.lasts_deeper_le (room : Nat) :
    Lasts room fun m n => m.deeper.length ≤ room → n.deeper.length ≤ room where
  refl _ h := h
  trans first second h := second (first h)
  plain := StaysWithin.plain
  place {m n node params} free placed hm := by
    unfold placeCallee? at placed
    cases hd : m.deeper with
    | nil =>
      rw [hd] at placed
      cases placed
      exact free
    | cons f rest =>
      rw [hd] at placed hm
      dsimp only at placed
      split at placed
      · split at placed
        · cases placed
          exact hm
        · cases placed
      · cases placed
        exact free
  spend _ h := h
  record m _ _ _ h := (m.deeper_modifyFrame _).symm ▸ h

theorem Turn.deeper_le {r : Result (Option Variable)}
    (hr : ∀ c m r, run c m r → m.deeper.length ≤ room → r.2.deeper.length ≤ room)
    (hm : m.deeper.length ≤ room) (h : Turn run p room i m r) : r.2.deeper.length ≤ room :=
  (Machine.lasts_deeper_le room).turn hr h hm

theorem Turns.deeper_le {r : Result Variable}
    (hr : ∀ c m r, run c m r → m.deeper.length ≤ room → r.2.deeper.length ≤ room)
    (h : Turns run p room i m r) (hm : m.deeper.length ≤ room) : r.2.deeper.length ≤ room :=
  (Machine.lasts_deeper_le room).turns hr h hm

theorem Machine.deeper_le_of_enter? {inside : Machine} {node : NodeId} (entered : m.enter? node = some inside)
    (hm : m.deeper.length ≤ room + 1) : inside.deeper.length ≤ room := by
  rcases Machine.enter?_cases entered with rfl | ⟨f, rest, some, _, _, rfl⟩
  · exact Nat.zero_le _
  · rw [some] at hm
    exact Nat.le_of_succ_le_succ hm

/-- The frames beneath are never more than may be nested there. -/
theorem Executes.deeper_le {r : Result Variable} (h : Executes p room i m r)
    (hm : m.deeper.length ≤ room) : r.2.deeper.length ≤ room := by
  revert hm
  refine h.induction (Q := fun room _ m r => m.deeper.length ≤ room → r.2.deeper.length ≤ room)
    (fun {_ i} m _ _ => ?_) (fun m fault _ => Nat.zero_le _)
    (fun {room i m inside left} hl entered deeper turns hm => ?_)
  · rw [settle_of_running ((Plain.leaf (i := i) trivial).ne_suspended m)]
    exact Nat.zero_le _
  · have beneath := Machine.deeper_le_of_enter? entered hm
    have left_le := turns.deeper_le deeper beneath
    obtain ⟨o, m'⟩ := left
    by_cases ho : o = .error .suspended
    · subst ho
      exact Nat.succ_le_succ left_le
    · rw [leaveFrame_of_running ho]
      exact Nat.zero_le _

end Tickwise
