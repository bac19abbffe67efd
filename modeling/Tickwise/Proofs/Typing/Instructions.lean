import Tickwise.Proofs.Typing.Values
set_option autoImplicit false

/-!
# Typed instructions

The static type of an expression, and what the parts of an instruction have to satisfy for its value
to be of that type.
-/
namespace Tickwise

open Compile

def Instr.ty : Instr → Ty
  | .mk _ _ (.literal v) => v.ty
  | .mk _ _ (.load place) => place.ty
  | .mk _ _ (.store place _ _ _) => place.ty
  | .mk _ _ (.step place _ _) => place.ty
  | .mk _ _ (.binary op ty _ _) => if op.isComparison then .bool else ty
  | .mk _ _ (.logical _ _ _) => .bool
  | .mk _ _ (.unary _ operand) => operand.ty
  | .mk _ _ (.ternary _ yes no) => if yes.ty = .null then no.ty else yes.ty
  | .mk _ _ (.convert target _) => target
  | .mk _ _ (.call _ _ ret) => ret
  | .mk _ _ (.new cls) => .named cls.name
  | .mk _ _ (.list ty _) => ty
  | _ => .void

structure Declarations where
  class? : String → Option ClassLayout
  function? : FunctionId → Option (List Ty × Ty)
  native? : NativeId → Option NativeFn
  var? : VarId → Option Ty

/-- Does a parameter of a native take arguments of this type as they are? -/
def ParamType.Fits : ParamType → Ty → Prop
  | exact ty, arg => ty.Fits arg
  | anyArray, arg => arg = .null ∨ ∃ elem, arg = .array elem
  | any, arg => arg ≠ .void

namespace Declarations

structure Le (D D' : Declarations) : Prop where
  classes : D'.class? = D.class?
  functions : D'.function? = D.function?
  natives : D'.native? = D.native?
  vars : ∀ {id ty}, D.var? id = some ty → D'.var? id = some ty

theorem Le.refl (D : Declarations) : D.Le D := ⟨rfl, rfl, rfl, id⟩

theorem Le.trans {D D' D'' : Declarations} (h : D.Le D') (h' : D'.Le D'') : D.Le D'' :=
  ⟨h'.classes.trans h.classes, h'.functions.trans h.functions, h'.natives.trans h.natives,
    fun hv => h'.vars (h.vars hv)⟩

/-- A path leads from storage of one type to storage of another. -/
def Leads (D : Declarations) : Ty → List (Access Instr) → Ty → Prop
  | src, [], dst => src = dst
  | src, .index _ elem :: path, dst => src = .array elem ∧ D.Leads elem path dst
  | src, .field k :: path, dst => ∃ c cls f, src = .named c ∧ D.class? c = some cls ∧
      cls.fields[k]? = some f ∧ D.Leads f.ty path dst

def Names (D : Declarations) (place : Place Instr) : Prop :=
  ∃ ty, D.var? place.root = some ty ∧ D.Leads ty place.path place.ty

def Takes {α : Type} (fits : α → Ty → Prop) (params : List α) (args : List Instr) : Prop :=
  args.length = params.length ∧
    ∀ (k : Nat) (param : α) (arg : Instr), params[k]? = some param → args[k]? = some arg →
      fits param arg.ty

def Checks (D : Declarations) (ret : Ty) : Form Instr → Prop
  | .declare var _ ty _ init => D.var? var = some ty ∧ ∀ e, init = some e → ty.Fits e.ty
  | .ret (some e) => ret.Fits e.ty
  | .ret none => ret = .void
  | .literal v => ∀ S : Shapes, S.Has v.ty v.value
  | .load place => D.Names place
  | .store place none _ value => D.Names place ∧ place.ty.Fits value.ty
  | .store place (some _) _ _ => D.Names place ∧ place.ty.isReference = false
  | .step place _ _ => D.Names place ∧ place.ty.isNumeric = true
  | .binary op ty _ _ => op.Suits ty
  | .unary op operand => Compiler.unaryAdmits op operand.ty = true
  | .ternary _ yes no =>
    let ty := if yes.ty = .null then no.ty else yes.ty
    ty.Fits yes.ty ∧ ty.Fits no.ty
  | .convert target _ => target.isReference = false
  | .call (.user id) args ret => ∃ params, D.function? id = some (params, ret) ∧ Takes Ty.Fits params args
  | .call (.native id) args ret => ∃ f, D.native? id = some f ∧ f.ret = ret ∧
      Takes ParamType.Fits f.params args
  | .new cls => D.class? cls.name = some cls
  | .list ty elements => ∃ elem, ty = .array elem ∧ ∀ e ∈ elements, elem.Fits e.ty
  | _ => True

end Declarations

/-- An instruction of a function with result type `ret` is right in all its parts. -/
inductive Instr.Typed (D : Declarations) (ret : Ty) : Instr → Prop
  | intro {i : Instr} (checks : D.Checks ret i.form) (parts : ∀ c ∈ i.children, Typed D ret c) :
      Typed D ret i

namespace Declarations

variable {D D' : Declarations} {ret : Ty}

theorem Leads.mono (hD : D.Le D') {path : List (Access Instr)} {src dst : Ty}
    (h : D.Leads src path dst) : D'.Leads src path dst := by
  induction path generalizing src with
  | nil => exact h
  | cons access path ih =>
    cases access with
    | index e elem => exact ⟨h.1, ih h.2⟩
    | field k =>
      obtain ⟨c, cls, f, src, known, field, leads⟩ := h
      exact ⟨c, cls, f, src, (congrFun hD.classes c).trans known, field, ih leads⟩

theorem Leads.concat {path : List (Access Instr)} {access : Access Instr} {src mid dst : Ty}
    (h : D.Leads src path mid) (last : D.Leads mid [access] dst) :
    D.Leads src (path ++ [access]) dst := by
  induction path generalizing src with
  | nil =>
    cases h
    exact last
  | cons first path ih =>
    cases first with
    | index e elem => exact ⟨h.1, ih h.2⟩
    | field k =>
      obtain ⟨c, cls, f, src, known, field, leads⟩ := h
      exact ⟨c, cls, f, src, known, field, ih leads⟩

theorem Names.mono (hD : D.Le D') {place : Place Instr} (h : D.Names place) : D'.Names place := by
  obtain ⟨ty, var, leads⟩ := h
  exact ⟨ty, hD.vars var, leads.mono hD⟩

theorem Checks.mono (hD : D.Le D') {form : Form Instr} (h : D.Checks ret form) :
    D'.Checks ret form := by
  cases form with
  | declare => exact ⟨hD.vars h.1, h.2⟩
  | load => exact Names.mono hD h
  | store place op => cases op <;> exact ⟨h.1.mono hD, h.2⟩
  | step => exact ⟨h.1.mono hD, h.2⟩
  | call callee =>
    cases callee with
    | user id =>
      obtain ⟨params, known, takes⟩ := h
      exact ⟨params, (congrFun hD.functions id).trans known, takes⟩
    | native id =>
      obtain ⟨f, known, rest⟩ := h
      exact ⟨f, (congrFun hD.natives id).trans known, rest⟩
  | new cls => exact (congrFun hD.classes cls.name).trans h
  | ret value => cases value <;> exact h
  | _ => exact h

end Declarations

theorem Instr.Typed.mono {D D' : Declarations} {ret : Ty} {i : Instr} (hD : D.Le D')
    (h : i.Typed D ret) : i.Typed D' ret := by
  induction h with
  | intro checks _ ih => exact .intro (checks.mono hD) ih

theorem Instr.Typed.checks {D : Declarations} {ret : Ty} {i : Instr} (h : i.Typed D ret) :
    D.Checks ret i.form := by
  cases h with
  | intro checks _ => exact checks

theorem Instr.Typed.part {D : Declarations} {ret : Ty} {i c : Instr} (h : i.Typed D ret)
    (hc : c ∈ i.children) : c.Typed D ret := by
  cases h with
  | intro _ parts => exact parts c hc

end Tickwise
