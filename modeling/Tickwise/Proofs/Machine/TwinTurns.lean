import Tickwise.Proofs.Machine.Outer
import Tickwise.Proofs.Machine.TwinMoves
set_option autoImplicit false

/-!
# Turns of twins

Where twins stand beneath blank frames, at the same positions and with what they have left behind, a turn that is not of
a call leads to such a position again, or both are over with the same value or for the same reason.
-/
namespace Tickwise

open Exec

def Instr.Home (p : Program) (i : Instr) (s : Spot) : Prop :=
  ∀ c follow, i.move p (s.frame i.id) = .run c follow → c ∈ i.children

/-- What twins have left behind, outermost first: frames at the same positions, or the same frames of one function
body. -/
inductive Rests (p : Program) (x : VarId) : Instr → Instr → List (Frame Variable) → List (Frame Variable) → Prop
  | fresh {i i' : Instr} (twin : i.Twin i') (spares : i.Spares x) : Rests p x i i' [] []
  | own {i i' : Instr} (twin : i.Twin i') (spares : i.Spares x) (s : Spot) (parts : i.isLeaf = false)
    (home : i.Home p s) : Rests p x i i' [s.frame i.id] [s.frame i'.id]
  | part {i i' c c' : Instr} (twin : i.Twin i') (spares : i.Spares x) (s : Spot)
    {follow follow' : Except Interrupt Variable → Exec (Option Variable)}
    (move : i.move p (s.frame i.id) = .run c follow) (move' : i'.move p (s.frame i'.id) = .run c' follow')
    {ds ds' : List (Frame Variable)} (inner : Rests p x c c' ds ds') :
    Rests p x i i' (s.frame i.id :: ds) (s.frame i'.id :: ds')
  | body {b : Instr} {statements : List Instr} (form : b.form = .block statements) {f : Frame Variable}
    (node : f.node = b.id) (call : f.call = true) (ds : List (Frame Variable)) : Rests p x b b (f :: ds) (f :: ds)

namespace Abode

variable (a : Abode) (p : Program) (i i' : Instr)

/-- How twins end beneath their frames. -/
inductive Runs : Result Variable → Result Variable → Prop
  | suspended (core : Machine) (keeps : a.Keeps core) {ds ds' : List (Frame Variable)}
    (rests : Rests p a.x i i' ds ds') :
    Runs (.error .suspended, core.topped a.left ds) (.error .suspended, core.topped a.right ds')
  | ended (core : Machine) (keeps : a.Keeps core) {o o' : Except Interrupt Variable} (agree : Agree o o')
    (running : o ≠ .error .suspended) : Runs (o, core.topped a.left []) (o', core.topped a.right [])

inductive Stands : Machine → Machine → Prop
  | mk (core : Machine) (keeps : a.Keeps core) (s : Spot) {ds ds' : List (Frame Variable)}
    (rests : Rests p a.x i i' (s.frame i.id :: ds) (s.frame i'.id :: ds')) :
    Stands (core.topped (a.within s i.id i'.id).left ds) (core.topped (a.within s i.id i'.id).right ds')

inductive Turned : Result (Option Variable) → Result (Option Variable) → Prop
  | suspended {m n : Machine} (stands : a.Stands p i i' m n) : Turned (.error .suspended, m) (.error .suspended, n)
  | next {m n : Machine} (stands : a.Stands p i i' m n) : Turned (.ok none, m) (.ok none, n)
  | ended {r r' : Result (Option Variable)} (ends : a.Ends i.id i'.id r r') (running : r.1 ≠ .error .suspended)
    (finished : r.1 ≠ .ok none) : Turned r r'

end Abode

def Exec.Matched (p : Program) (room : Nat) : Prop :=
  ∀ {a : Abode} {i i' : Instr} {ds ds' : List (Frame Variable)} (core : Machine), a.Keeps core → i.Twin i' →
    Rests p a.x i i' ds ds' →
    a.Runs p i i' (exec p room i (core.topped a.left ds)) (exec p room i' (core.topped a.right ds'))

variable {a : Abode} {p : Program} {room : Nat} {i i' c c' : Instr} {x : VarId} {ds ds' : List (Frame Variable)}

theorem Exec.Agree.running {α : Type} {o o' : Except Interrupt α} (agree : Agree o o')
    (running : o ≠ .error .suspended) :
    o' ≠ .error .suspended := by
  rintro rfl
  cases agree with
  | error same => cases same with
    | same => exact running rfl

theorem Instr.Twin.not_block (h : i.Twin i') (statements : List Instr) : i.form ≠ .block statements := by
  intro form
  have same := h.form
  rw [form] at same
  cases same

theorem Rests.inner {s : Spot} {follow follow' : Except Interrupt Variable → Exec (Option Variable)}
    (h : Rests p x i i' (s.frame i.id :: ds) (s.frame i'.id :: ds')) (twin : i.Twin i')
    (move : i.move p (s.frame i.id) = .run c follow) (move' : i'.move p (s.frame i'.id) = .run c' follow') :
    Rests p x c c' ds ds' ∨ ds = [] ∧ ds' = [] ∧ c ∈ i.children := by
  generalize left : s.frame i.id :: ds = l at h
  generalize right : s.frame i'.id :: ds' = r at h
  cases h with
  | fresh => cases left
  | own _ _ t _ home =>
    obtain ⟨same, rfl⟩ := List.cons.inj left
    obtain ⟨_, rfl⟩ := List.cons.inj right
    exact .inr ⟨rfl, rfl, home c follow (same ▸ move)⟩
  | part _ _ t moved moved' inner =>
    obtain ⟨same, rfl⟩ := List.cons.inj left
    obtain ⟨same', rfl⟩ := List.cons.inj right
    rw [← same] at moved
    rw [← same'] at moved'
    cases move.symm.trans moved
    cases move'.symm.trans moved'
    exact .inl inner
  | body form => exact absurd form (twin.not_block _)

theorem Rests.bare {s : Spot} (h : Rests p x i i' (s.frame i.id :: ds) (s.frame i'.id :: ds')) (twin : i.Twin i')
    (acts : ∀ c follow, i.move p (s.frame i.id) ≠ .run c follow) : ds = [] ∧ ds' = [] := by
  generalize left : s.frame i.id :: ds = l at h
  generalize right : s.frame i'.id :: ds' = r at h
  cases h with
  | fresh => cases left
  | own => exact ⟨(List.cons.inj left).2, (List.cons.inj right).2⟩
  | part _ _ t move => exact absurd ((List.cons.inj left).1 ▸ move) (acts _ _)
  | body form => exact absurd form (twin.not_block _)

theorem Exec.turn_act {run : Instr → Exec Variable} {m : Machine} {action : Exec (Option Variable)}
    (move : i.move p m.own = .act action) : turn run p room i m = action m := by
  rw [turn_apply, move]

theorem Instr.move_other (other : ∀ callee args ret, i.form ≠ .call callee args ret) (p q : Program)
    (f : Frame Variable) :
    i.move p f = i.move q f := by
  unfold Instr.move
  split
  · rfl
  · cases form : i.form with
    | call callee args ret => exact absurd form (other callee args ret)
    | ret value => cases value <;> rfl
    | _ => rfl

theorem Instr.part_of_run {f : Frame Variable} {follow : Except Interrupt Variable → Exec (Option Variable)}
    (other : ∀ callee args ret, i.form ≠ .call callee args ret) (move : i.move p f = .run c follow) :
    c ∈ i.children := by
  have inside := i.move_inside { p with functions := [] } f
  rw [← Instr.move_other other p, move] at inside
  obtain part | ⟨_, none, _⟩ := inside
  · exact part
  · cases none

namespace Abode.Turned

theorem of_ends {r r' : Result (Option Variable)} (twin : i.Twin i') (spares : i.Spares a.x)
    (parts : i.isLeaf = false)
    (home : ∀ s (core : Machine), r = (.ok none, core.topped (a.within s i.id i'.id).left []) → i.Home p s)
    (ends : a.Ends i.id i'.id r r') (running : r.1 ≠ .error .suspended) : a.Turned p i i' r r' := by
  cases ends with
  | mk core s keeps agree =>
    cases agree with
    | ok same =>
      subst same
      rename_i o
      cases o with
      | none => exact .next (.mk core keeps s (.own twin spares s parts (home s core rfl)))
      | some v => exact .ended (.mk core s keeps (.ok rfl)) running nofun
    | error same => exact .ended (.mk core s keeps (.error same)) running nofun

end Abode.Turned

section

variable (deeper : Matched p room)

include deeper

theorem Exec.turned_of_run {core : Machine} {s : Spot}
    {follow follow' : Except Interrupt Variable → Exec (Option Variable)}
    (twin : i.Twin i') (spares : i.Spares a.x) (part : c.Twin c') (keeps : a.Keeps core)
    (rests : Rests p a.x i i' (s.frame i.id :: ds) (s.frame i'.id :: ds'))
    (move : i.move p (s.frame i.id) = .run c follow) (move' : i'.move p (s.frame i'.id) = .run c' follow')
    (follows : ∀ o o' (core : Machine), Agree o o' → o ≠ .error .suspended → a.Keeps core →
      a.Turned p i i' (follow o (core.topped (a.within s i.id i'.id).left []))
        (follow' o' (core.topped (a.within s i.id i'.id).right []))) :
    a.Turned p i i' (turn (exec p room) p room i (core.topped (a.within s i.id i'.id).left ds))
      (turn (exec p room) p room i' (core.topped (a.within s i.id i'.id).right ds')) := by
  have plain := i.move_isPlain p (s.frame i.id)
  have plain' := i'.move_isPlain p (s.frame i'.id)
  rw [move] at plain
  rw [move'] at plain'
  have inner : Rests p a.x c c' ds ds' := by
    rcases rests.inner twin move move' with inner | ⟨rfl, rfl, mem⟩
    · exact inner
    · exact .fresh part (spares.part mem)
  have runs := deeper (a := a.within s i.id i'.id) core keeps part inner
  rw [turn_run (m := core.topped (a.within s i.id i'.id).left ds) move,
    turn_run (m := core.topped (a.within s i.id i'.id).right ds') move']
  generalize exec p room c _ = r at runs
  generalize exec p room c' _ = r' at runs
  cases runs with
  | suspended core' keeps' rests' =>
    dsimp only
    rw [plain.1, plain'.1]
    have kept : a.Keeps core' := keeps'
    exact .suspended (.mk core' kept s (.part twin spares s move move' rests'))
  | ended core' keeps' agree running => exact follows _ _ core' agree running keeps'

theorem Exec.turned_of_other (twin : i.Twin i') (spares : i.Spares a.x)
    (other : ∀ callee args ret, i.form ≠ .call callee args ret) (parts : i.isLeaf = false) {m n : Machine}
    (stands : a.Stands p i i' m n) :
    a.Turned p i i' (turn (exec p room) p room i m) (turn (exec p room) p room i' n) := by
  obtain ⟨core, keeps, s, rests⟩ := stands
  rename_i ds ds'
  have home (s : Spot) : i.Home p s := fun _ _ move => Instr.part_of_run other move
  have moves := twin.moves p spares other i.id i'.id s
  have plain := i.move_isPlain p (s.frame i.id)
  generalize move : i.move p (s.frame i.id) = mv at moves plain
  generalize move' : i'.move p (s.frame i'.id) = mv' at moves
  cases moves with
  | run part follows =>
    refine turned_of_run deeper twin spares part keeps rests move move' fun o o' core agree running keeps => ?_
    refine .of_ends twin spares parts (fun s _ _ => home s) ((follows o o' agree).ends core s keeps) ?_
    exact (plain.2 o running fun _ _ _ _ => trivial).ne_suspended _
  | act same =>
    obtain ⟨rfl, rfl⟩ := rests.bare twin fun _ _ runs => by cases move.symm.trans runs
    rw [turn_act (m := core.topped (a.within s i.id i'.id).left []) move,
      turn_act (m := core.topped (a.within s i.id i'.id).right []) move']
    exact .of_ends twin spares parts (fun s _ _ => home s) (same.ends core s keeps) (Plain.ne_suspended plain _)

end

end Tickwise
