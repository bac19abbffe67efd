import Tickwise.Proofs.Machine.TwinCalls
set_option autoImplicit false

/-!
# Runs of twins

Twins that execute beneath blank frames end alike: with the same value or for the same reason, with the same heap,
journal and budget, and the same frames further out. If they are suspended, what each leaves behind is such that they
end alike when they go on.
-/
namespace Tickwise

open Exec

variable {a : Abode} {p : Program} {room : Nat} {i i' c c' : Instr} {x : VarId} {ds ds' : List (Frame Variable)}

namespace Exec

section

variable (deeper : Matched p room)

include deeper

theorem turned_of_stands (braced : p.Braced) (twin : i.Twin i') (spares : i.Spares a.x) (parts : i.isLeaf = false)
    {m n : Machine} (stands : a.Stands p i i' m n) :
    a.Turned p i i' (turn (exec p room) p room i m) (turn (exec p room) p room i' n) := by
  by_cases call : ∃ callee args ret, i.form = .call callee args ret
  · obtain ⟨callee, args, ret, form⟩ := call
    exact turned_of_call deeper braced form twin spares stands
  · exact turned_of_other deeper twin spares (fun callee args ret form => call ⟨callee, args, ret, form⟩) parts stands

theorem runs_of_turns (braced : p.Braced) (twin : i.Twin i') (spares : i.Spares a.x) (parts : i.isLeaf = false)
    (fuel : Nat) {m n : Machine} (stands : a.Stands p i i' m n) :
    a.Runs p i i' (leaveFrame (turns (exec p room) p room i fuel m))
      (leaveFrame (turns (exec p room) p room i' fuel n)) := by
  have left {m n : Machine} (stands : a.Stands p i i' m n) :
      a.Runs p i i' (leaveFrame (.error .suspended, m)) (leaveFrame (.error .suspended, n)) := by
    obtain ⟨core, keeps, s, rests⟩ := stands
    exact .suspended core keeps rests
  have quits {r r' : Result Variable} (ends : a.Ends i.id i'.id r r') (running : r.1 ≠ .error .suspended) :
      a.Runs p i i' (leaveFrame r) (leaveFrame r') := by
    obtain ⟨core, s, keeps, agree⟩ := ends
    rw [leaveFrame_of_running running, leaveFrame_of_running (agree.running running)]
    exact .ended core keeps agree running
  induction fuel generalizing m n with
  | zero => exact left stands
  | succ fuel ih =>
    have turned := turned_of_stands deeper braced twin spares parts stands
    unfold turns
    rw [bind_apply, bind_apply]
    generalize turn (exec p room) p room i m = r at turned
    generalize turn (exec p room) p room i' n = r' at turned
    cases turned with
    | suspended stands => exact left stands
    | next stands => exact ih stands
    | ended ends running finished =>
      obtain ⟨core, s, keeps, agree⟩ := ends
      cases agree with
      | ok same =>
        subst same
        rename_i o
        cases o with
        | none => exact absurd rfl finished
        | some v => exact quits (.mk core s keeps (.ok rfl)) fun h => by cases h
      | error same =>
        exact quits (.mk core s keeps (.error same)) fun h => running (congrArg _ (Except.error.inj h))

end

theorem exec_of_leaf (whole : i.isLeaf = true) : exec p room i = settle (leaf i) := by
  cases room with
  | zero => exact if_pos whole
  | succ room => exact if_pos whole

theorem runs_of_leaf (twin : i.Twin i') (whole : i.isLeaf = true) (core : Machine) (keeps : a.Keeps core) :
    a.Runs p i i' (settle (leaf i) (core.topped a.left [])) (settle (leaf i') (core.topped a.right [])) := by
  obtain ⟨id, id', span, span', same⟩ := twin
  cases same with
  | literal v => exact .ended core keeps (.ok rfl) nofun
  | new cls => exact .ended { core with heap := (core.heap.newObject cls).2 } keeps (.ok rfl) nofun
  | load place =>
    obtain ⟨root, name, ty, path⟩ := place
    cases path with
    | cons => cases whole
    | nil =>
      have found {top : List (Frame Variable)} (blank : ∀ f ∈ top, f.Blank) :
          (core.topped top []).read? (.var root) = Frame.findVar? root core.frames := Machine.findVar?_topped blank
      change a.Runs p _ _ (settle (readInit span (.var root)) _) (settle (readInit span' (.var root)) _)
      unfold settle readInit
      rw [bind_apply, bind_apply, read_apply, read_apply, found a.blankLeft, found a.blankRight]
      cases Frame.findVar? root core.frames with
      | none => exact .ended core keeps (.error (.fault ..)) nofun
      | some v =>
        dsimp only
        by_cases init : v.isInit = true
        · rw [pure_apply, pure_apply]
          dsimp only
          rw [if_pos init, if_pos init]
          exact .ended core keeps (.ok rfl) nofun
        · rw [pure_apply, pure_apply]
          dsimp only
          rw [if_neg init, if_neg init]
          exact .ended core keeps (.error (.fault ..)) nofun
  | _ => cases whole

theorem enter?_topped (core : Machine) (s : Spot) (node : NodeId) (top ds : List (Frame Variable)) :
    (core.topped top (s.frame node :: ds)).enter? node = some (core.topped (s.frame node :: top) ds) :=
  Machine.enter?_of_cons rfl rfl rfl

/-- Twins that are no leaves begin in frames of their own, or go on in those that they have left behind. -/
theorem runs_of_entered (braced : p.Braced) (twin : i.Twin i') (spares : i.Spares a.x) (parts : i.isLeaf = false)
    (deeper : ∀ {a : Abode} {c c' : Instr} {ds ds' : List (Frame Variable)} (core : Machine), a.Keeps core →
      c.Twin c' → Rests p a.x c c' ds ds' →
      a.Runs p c c' (exec p room c (core.topped a.left ds)) (exec p room c' (core.topped a.right ds')))
    (core : Machine) (keeps : a.Keeps core) (s : Spot)
    (rests : Rests p a.x i i' (s.frame i.id :: ds) (s.frame i'.id :: ds')) {m n : Machine}
    (left : m.enter? i.id = some (core.topped (s.frame i.id :: a.left) ds))
    (right : n.enter? i'.id = some (core.topped (s.frame i'.id :: a.right) ds')) :
    a.Runs p i i' (exec p (room + 1) i m) (exec p (room + 1) i' n) := by
  unfold exec inFrame
  rw [if_neg (by simp [parts]), if_neg (by simp [← twin.isLeaf, parts])]
  rw [left, right]
  dsimp only
  unfold form
  change a.Runs p i i' (leaveFrame (turns _ p room i (turnBound i * (core.budget + 1)) _))
    (leaveFrame (turns _ p room i' (turnBound i' * (core.budget + 1)) _))
  rw [← twin.turnBound]
  exact runs_of_turns deeper braced twin spares parts _ (.mk core keeps s rests)

theorem exec_leaves (core : Machine) (keeps : a.Keeps core) (twin : i.Twin i') (rests : Rests p a.x i i' ds ds')
    (whole : i.isLeaf = true) :
    a.Runs p i i' (exec p room i (core.topped a.left ds)) (exec p room i' (core.topped a.right ds')) := by
  obtain ⟨rfl, rfl⟩ : ds = [] ∧ ds' = [] := by
    cases rests with
    | fresh => exact ⟨rfl, rfl⟩
    | own _ _ _ parts =>
      rw [whole] at parts
      cases parts
    | part _ _ _ move =>
      rw [Instr.isLeaf_of_run move] at whole
      cases whole
    | body form => exact absurd form (twin.not_block _)
  rw [exec_of_leaf whole, exec_of_leaf (twin.isLeaf ▸ whole)]
  exact runs_of_leaf twin whole core keeps

theorem exec_twins (braced : p.Braced) (core : Machine) (keeps : a.Keeps core) (twin : i.Twin i')
    (rests : Rests p a.x i i' ds ds') :
    a.Runs p i i' (exec p room i (core.topped a.left ds)) (exec p room i' (core.topped a.right ds')) := by
  induction room generalizing a i i' ds ds' core with
  | zero =>
    by_cases whole : i.isLeaf = true
    · exact exec_leaves core keeps twin rests whole
    · unfold exec
      rw [if_neg whole, if_neg (twin.isLeaf ▸ whole)]
      exact .ended core keeps (.error (.fault ..)) fun h => by cases h
  | succ room ih =>
    by_cases whole : i.isLeaf = true
    · exact exec_leaves core keeps twin rests whole
    · have parts : i.isLeaf = false := by simpa using whole
      cases rests with
      | fresh _ spares =>
        have home : i.Home p ⟨0, 0, []⟩ := by
          by_cases call : ∃ callee args ret, i.form = .call callee args ret
          · obtain ⟨callee, args, ret, form⟩ := call
            exact .arguments form rfl
          · exact fun _ _ move => Instr.part_of_run (fun callee args ret form => call ⟨callee, args, ret, form⟩) move
        exact runs_of_entered braced twin spares parts ih core keeps ⟨0, 0, []⟩ (.own twin spares _ parts home) rfl rfl
      | own _ spares s parts home =>
        exact runs_of_entered braced twin spares parts ih core keeps s (.own twin spares s parts home)
          (enter?_topped ..) (enter?_topped ..)
      | part _ spares s move move' inner =>
        exact runs_of_entered braced twin spares parts ih core keeps s (.part twin spares s move move' inner)
          (enter?_topped ..) (enter?_topped ..)
      | body form => exact absurd form (twin.not_block _)

end Exec

end Tickwise
