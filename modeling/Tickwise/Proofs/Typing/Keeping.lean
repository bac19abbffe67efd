import Tickwise.Proofs.Compile.Emission
import Tickwise.Proofs.Machine.KeepingParts
set_option autoImplicit false

/-!
# Typed executions that keep a discipline

A typed program renders no value to store it as a string: only text becomes text. So a discipline has to permit
other conversions only.
-/
namespace Tickwise

open Exec

/-- Converting the variable to the type renders nothing: only what is text already becomes text. -/
def Ty.Unrendered (ty : Ty) (v : Variable) : Prop := ty = .string → ∃ s, v.value = .string s

namespace Ty

variable {S : Shapes} {ty mark src : Ty} {v : Variable}

theorem unrendered_of_has (hv : S.Has ty v.value) : ty.Unrendered v := by
  rintro rfl
  exact hv

theorem unrendered_of_marks (hv : S.Has ty v.value) (marks : ty.Marks mark) : mark.Unrendered v := by
  rintro rfl
  rcases marks with rfl | ⟨_, reference⟩
  · exact hv
  · cases reference

theorem unrendered_of_accepts (hv : S.Has src v.value) (accepts : ty.accepts src = true) : ty.Unrendered v := by
  rintro rfl
  cases src with
  | string => exact hv
  | _ => cases accepts

end Ty

/-!
## What is executed behind state 0
-/

namespace Instr

variable {p : Program} {i c : Instr} {f : Frame Variable} {follow : Except Interrupt Variable → Exec (Option Variable)}

theorem init_of_run {var : VarId} {name : String} {ty : Ty} {dims : List Instr} {init : Option Instr}
    (form : i.form = .declare var name ty dims init) (behind : f.state ≠ 0) (move : i.move p f = .run c follow) :
    init = some c := by
  unfold Instr.move at move
  rw [form] at move
  change Move.ofDeclare _ _ _ _ _ _ _ = _ at move
  unfold Move.ofDeclare at move
  rw [if_neg behind] at move
  cases init with
  | none => cases move
  | some e =>
    cases move
    rfl

theorem value_of_run {place : Place Instr} {op : Option BinaryOp} {operandTy : Ty} {value : Instr}
    (form : i.form = .store place op operandTy value) (behind : f.state ≠ 0) (move : i.move p f = .run c follow) :
    value = c := by
  unfold Instr.move at move
  rw [form] at move
  change Move.ofStore _ _ _ _ _ _ = _ at move
  unfold Move.ofStore at move
  rw [if_neg behind] at move
  cases move
  rfl

theorem callee_of_run {callee : Callee} {args : List Instr} {ret : Ty} (form : i.form = .call callee args ret)
    (behind : f.state ≠ 0) (move : i.move p f = .run c follow) :
    ∃ id g, callee = .user id ∧ p.function? id = some g ∧ c = g.body := by
  unfold Instr.move at move
  rw [form] at move
  change Move.ofCall _ _ _ _ _ _ = _ at move
  unfold Move.ofCall at move
  rw [if_neg behind] at move
  cases callee with
  | native id =>
    dsimp only at move
    cases native : p.env.natives.get? id with
    | none =>
      rw [native] at move
      cases move
    | some g =>
      rw [native] at move
      cases move
  | user id =>
    dsimp only at move
    cases found : p.function? id with
    | none =>
      rw [found] at move
      cases move
    | some g =>
      rw [found] at move
      dsimp only at move
      split at move
      · cases move
      · cases move
        exact ⟨id, g, rfl, found, rfl⟩

end Instr

variable {A : Discipline} {p : Program} {D : Declarations} {env : Environment} {ret : Ty} {room : Nat} {i c : Instr}
  {S : MarkedShapes} {m m' : Machine} {v : Variable} {o : Except Interrupt Variable}
  {follow : Except Interrupt Variable → Exec (Option Variable)}

/-!
## Conversions
-/

theorem Machine.Amid.yields (hp : p.Keeps D S.marking) (amid : m.Amid p D ret i S)
    (move : i.move p m.own = .run c follow) (run : Executes p room c m (.ok v, m')) :
    ∃ S', m'.Typed D S' ∧ S'.HasTemp c.ty v := by
  obtain ⟨ret', before⟩ := amid.part hp move
  obtain ⟨S', _, typed, temp⟩ := run.sound hp before
  exact ⟨S', typed, temp⟩

theorem Machine.Typed.assigns {place : Place Instr} {op : Option BinaryOp} {operandTy : Ty} {value : Instr}
    {span : Span} (converts : ∀ ty v, ty.Unrendered v → A.Converts ty v) (hm : m.Typed D S)
    (checks : D.Checks ret (.store place op operandTy value)) (temp : S.HasTemp value.ty v)
    (emitted : (Form.store place op operandTy value).Emitted env) :
    A.Assigns span place op operandTy m v := by
  intro storage m' target located here
  have names : D.Names place := by cases op <;> exact checks.1
  have there : Sound D ret (fun S' m' storage => S'.Owns D m'.heap place.ty storage) (fun _ _ => False) S
      (locate span place op.isNone m) := .locate hm names
  rw [located] at there
  obtain ⟨S', le, typed, owned⟩ := there
  have marks := S'.marking.marks (owned.read? typed here).1.1
  cases op with
  | none =>
    have has := (temp.2.fits checks.2).mono le.toLe
    exact converts _ _ (Ty.unrendered_of_marks has marks)
  | some op =>
    obtain ⟨computes, suits, accepts⟩ := emitted
    intro w computed
    have result := S'.hasTemp_binary suits computed
    rw [if_neg (by simp [computes])] at result
    rw [marks.eq checks.2]
    exact converts _ _ (Ty.unrendered_of_accepts result.2 accepts)

theorem Machine.Amid.returns {callee : Callee} {args : List Instr} {ty : Ty} (hp : p.Keeps D S.marking)
    (amid : m.Amid p D ret i S) (form : i.form = .call callee args ty) (behind : m.own.state ≠ 0)
    (move : i.move p m.own = .run c follow) (run : Executes p room c m (.error (.returned v), m')) :
    ∃ S' : MarkedShapes, S'.Has ty v.value := by
  obtain ⟨id, g, rfl, found, rfl⟩ := Instr.callee_of_run form behind move
  have checks := amid.instr.checks
  rw [form] at checks
  obtain ⟨params, known, _⟩ := checks
  have signature := hp.typed.signatures found
  rw [known] at signature
  obtain ⟨-, rfl⟩ := Prod.mk.inj (Option.some.inj signature)
  have before := amid.inner move (hp.typed.functions g (List.mem_of_getElem? found)).body
  obtain ⟨S', _, _, has⟩ := run.sound hp before
  exact ⟨S', has⟩

theorem Machine.Amid.allows (converts : ∀ ty v, ty.Unrendered v → A.Converts ty v) (hp : p.Keeps D S.marking)
    (amid : m.Amid p D ret i S) (emitted : i.form.Emitted env) (move : i.move p m.own = .run c follow)
    (run : Executes p room c m (o, m')) : A.Allows i m.own o m' := by
  have checks := amid.instr.checks
  unfold Discipline.Allows
  split
  case h_1 form =>
    intro behind
    rw [form] at checks
    obtain ⟨S', _, temp⟩ := amid.yields hp move run
    have fits := checks.2 c (Instr.init_of_run form behind move)
    exact converts _ _ (Ty.unrendered_of_has (temp.2.fits fits))
  case h_2 form =>
    intro behind
    cases Instr.value_of_run form behind move
    rw [form] at checks emitted
    obtain ⟨S', typed, temp⟩ := amid.yields hp move run
    exact typed.assigns converts checks temp emitted
  case h_3 form =>
    rw [form] at emitted
    cases emitted
    exact converts _ _ nofun
  case h_4 form =>
    intro behind
    obtain ⟨S', has⟩ := amid.returns hp form behind move run
    exact converts _ _ (Ty.unrendered_of_has has)
  case h_5 => trivial

theorem Machine.Amid.fills (amid : m.Amid p D ret i S)
    (roomy : ∀ ty es, i.form = .list ty es → ∀ n ≤ es.length, A.Roomy n) : A.Fills i m.own := by
  intro ty es form _
  have operands : m.own.Sound S i.form := amid.resumes.1
  rw [form] at operands
  have collects : m.own.Collects S es := operands
  refine roomy ty es form _ (Nat.le_of_not_gt fun more => ?_)
  obtain ⟨e, he, _⟩ := collects.values es.length _ (List.getElem?_eq_getElem more)
  rw [List.getElem?_eq_none (Nat.le_refl _)] at he
  cases he

theorem Machine.Amid.unrendered {f : Function} (hp : p.Typed D) (amid : m.Amid p D ret i S)
    (move : i.move p m.own = .enter f) : ∀ q v, (q, v) ∈ f.params.zip m.own.operands → q.ty.Unrendered v := by
  intro q v mem
  obtain ⟨_, _, _, _, has⟩ := amid.enters hp move
  exact Ty.unrendered_of_has ((List.forall₂_iff_zip.1 has).2 mem)

/-!
## Guides
-/

def Program.Precedes (p : Program) (D : Declarations) (i : Instr) (m : Machine) : Prop :=
  ∃ ret S, p.Keeps D S.marking ∧ m.Before p D ret i S

def Program.Proceeds (p : Program) (D : Declarations) (i : Instr) (m : Machine) : Prop :=
  ∃ ret S, p.Keeps D S.marking ∧ m.Amid p D ret i S

namespace Discipline

/-- What a discipline asks of the instructions of a typed program: its literals are admitted, it has room for its
lists, and conversions that render nothing are permitted. -/
structure Suits (A : Discipline) (env : Environment) (P : Instr → Prop) : Prop where
  converts : ∀ ty v, ty.Unrendered v → A.Converts ty v
  emitted : ∀ i, P i → i.form.Emitted env
  literal : ∀ i, P i → ∀ h v, i.form = .literal v → A.Admits h v
  roomy : ∀ i, P i → ∀ ty es, i.form = .list ty es → ∀ n ≤ es.length, A.Roomy n
  part : ∀ i c, P i → c ∈ i.children → P c

variable {P : Instr → Prop}

/-- On a typed machine a native serves with an answer of its result type. -/
def Answers (A : Discipline) (D : Declarations) (f : NativeFn) : Prop :=
  ∀ (S : MarkedShapes) (m : Machine) (phase : CallPhase), m.Typed D S →
    List.Forall₂ (fun param v => S.Takes param v.value) f.params m.own.operands → A.Holds m →
    A.Onward m.heap (m.reply f phase).heap ∧ A.Stored (m.reply f phase).heap ∧
      ∀ v, (m.reply f phase).outcome = .done v → A.Admits (m.reply f phase).heap v

theorem Guides.of_typed (suits : A.Suits env P) (bodies : ∀ g ∈ p.functions, P g.body)
    (answers : ∀ f ∈ p.env.natives.natives, A.Answers D f) :
    A.Guides p (fun _ i m => P i ∧ p.Precedes D i m) fun _ i m => P i ∧ p.Proceeds D i m where
  literal hi := suits.literal _ hi.1
  enter := by
    rintro room i m inside ⟨hi, ret, S, hp, before⟩ entered
    exact ⟨hi, ret, S, hp, before.enter entered⟩
  next := by
    rintro room i m m' ⟨hi, ret, S, hp, amid⟩ turn
    have turn : Turn (fun c m r => exec p room c m = r) p room i m (.ok none, m') :=
      turn.mono fun _ _ _ => executes_iff.1
    obtain ⟨S', le, amid⟩ := turn.amid hp (p.deeper D room) amid
    exact ⟨hi, ret, S', hp.mono le, amid⟩
  part := by
    rintro room i m c follow ⟨hi, ret, S, hp, amid⟩ move
    obtain ⟨ret', before⟩ := amid.part hp move
    exact ⟨of_run suits.part bodies hi move, ret', S, hp, before⟩
  literal' hi := suits.literal _ hi.1
  allows := by
    rintro room i m c follow o m' ⟨hi, ret, S, hp, amid⟩ move run _
    exact amid.allows suits.converts hp (suits.emitted i hi) move run
  fills := by
    rintro room i m ⟨hi, ret, S, hp, amid⟩
    exact amid.fills (suits.roomy i hi)
  enters := by
    rintro room i m f ⟨hi, ret, S, hp, amid⟩ move q v mem
    exact suits.converts _ _ (amid.unrendered hp.typed move q v mem)
  invokes := by
    rintro room i m id f ret ⟨hi, ret', S, hp, amid⟩ hm move
    obtain ⟨args, form, rfl, native, _, _, takes⟩ := amid.invokes hp.typed move
    have known := native
    rw [← hp.typed.natives] at known
    obtain ⟨onward, stored, admits⟩ := answers f (List.mem_of_getElem? known) S m _ amid.typed takes hm
    refine ⟨onward, stored, admits, fun v done => ?_⟩
    obtain ⟨S', _, _, has⟩ := hp.natives native S
      ⟨m.own.operands, callPhase m.own.state m.stop, Int32.ofInt m.own.index, m.heap, m.journal⟩ rfl amid.typed.classes amid.typed.heap takes
    exact suits.converts _ _ (Ty.unrendered_of_has (has v done))

end Discipline
end Tickwise
