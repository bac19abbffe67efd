import Tickwise.Proofs.Typing.Routines
set_option autoImplicit false

/-!
# Typed operands

Conversions and operators join typed operands to typed ones.
-/
namespace Tickwise

/-- The type of an operand of type `src` where one of type `target` is wanted. -/
def Ty.widened (target src : Ty) : Ty := if target = .float ∧ src = .int then .float else src

theorem Ty.fits_of_accepts {dst src : Ty} (h : dst.accepts src = true) :
    dst.Fits (dst.widened src) := by
  cases dst <;> cases src <;> simp_all [Ty.accepts, Fits, widened, isReference]

theorem Ty.isReference_of_accepts {dst src : Ty} (h : dst.accepts src = true)
    (scalar : src.isReference = false) : dst.isReference = false := by
  cases dst <;> cases src <;> simp_all [Ty.accepts, isReference]

theorem BinaryOp.suits_of_comparison {op : BinaryOp} (h : op.isComparison = true) (ty : Ty) :
    op.Suits ty := by
  cases ty with
  | int => trivial
  | float => trivial
  | bool => trivial
  | string => exact .inr h
  | _ => exact h

namespace Compile

/-- Operators other than comparisons compute in scalar types. -/
theorem operandType?_cases {op : BinaryOp} {left right ty : Ty}
    (h : operandType? op left right = some ty) : op.isComparison = true ∨
      ty = .int ∨ ty = .float ∨ ty = .bool ∨ ty = .string ∧ op = .add := by
  have promoted {a b : Ty} (hp : a.promote? b = some ty) : ty = .int ∨ ty = .float := by
    cases a <;> cases b <;> simp_all [Ty.promote?]
  have arithmetic (hp : left.promote? right = some ty) :
      ty = .int ∨ ty = .float ∨ ty = .bool ∨ ty = .string ∧ op = .add := by
    rcases promoted hp with h | h
    · exact .inl h
    · exact .inr (.inl h)
  have bitwise (hb : (if left = right ∧ (left = .int ∨ left = .bool) then some left else none) =
      some ty) : ty = .int ∨ ty = .float ∨ ty = .bool ∨ ty = .string ∧ op = .add := by
    split at hb
    case isTrue both =>
      cases hb
      rcases both.2 with h | h
      · exact .inl h
      · exact .inr (.inr (.inl h))
    case isFalse => cases hb
  have shift (hs : (if left = .int ∧ right = .int then some Ty.int else none) = some ty) :
      ty = .int ∨ ty = .float ∨ ty = .bool ∨ ty = .string ∧ op = .add := by
    split at hs
    · cases hs
      exact .inl rfl
    · cases hs
  cases op with
  | add =>
    right
    unfold operandType? at h
    dsimp only at h
    split at h
    · cases h
      exact .inr (.inr (.inr ⟨rfl, rfl⟩))
    · exact arithmetic h
  | sub | mul | div | rem | pow => exact .inr (arithmetic h)
  | bitAnd | bitOr | bitXor => exact .inr (bitwise h)
  | shiftLeft | shiftRight | shiftRightLogical => exact .inr (shift h)
  | _ => exact .inl rfl

theorem suits_of_operandType? {op : BinaryOp} {left right ty : Ty}
    (h : operandType? op left right = some ty) : op.Suits ty := by
  rcases operandType?_cases h with comparison | rfl | rfl | rfl | ⟨rfl, rfl⟩
  · exact BinaryOp.suits_of_comparison comparison ty
  · trivial
  · trivial
  · trivial
  · exact .inl rfl

theorem scalar_of_operandType? {op : BinaryOp} {left right ty : Ty}
    (h : operandType? op left right = some ty) (arithmetic : op.isComparison = false) :
    ty.isReference = false := by
  rcases operandType?_cases h with comparison | rfl | rfl | rfl | ⟨rfl, rfl⟩
  · rw [arithmetic] at comparison
    cases comparison
  all_goals rfl

theorem compoundOp?_arithmetic {op : Operator} {base : BinaryOp} (h : compoundOp? op = some base) :
    base.isComparison = false := by
  cases op <;> cases h <;> rfl

theorem branchType?_widened {yes no ty : Ty} (h : branchType? yes no = some ty) :
    (if ty.widened yes = .null then ty.widened no else ty.widened yes) = ty ∧
      ty.Fits (ty.widened yes) ∧ ty.Fits (ty.widened no) := by
  unfold branchType? at h
  split at h
  case isTrue same =>
    cases h
    subst same
    have widened : yes.widened yes = yes := if_neg fun h => by
      rw [h.1] at h
      cases h.2
    rw [widened, ite_self]
    exact ⟨rfl, .inl rfl, .inl rfl⟩
  case isFalse differ =>
    rcases Option.or_eq_some_iff.1 h with promoted | ⟨notNumbers, h⟩
    · cases yes <;> cases no <;> cases promoted <;> exact ⟨rfl, .inl rfl, .inl rfl⟩
    · -- One of the branches is null and the other one an array or an object.
      split at h
      case isTrue accepts =>
        cases h
        cases yes <;> cases no <;>
          simp_all [Ty.accepts, Ty.promote?, Ty.widened, Ty.Fits, Ty.isReference]
      case isFalse =>
        split at h
        case isTrue accepts =>
          cases h
          cases yes <;> cases no <;>
            simp_all [Ty.accepts, Ty.promote?, Ty.widened, Ty.Fits, Ty.isReference]
        case isFalse => cases h

end Compile

open Compile Compiler

/-- An operand is typed and has the type that is reported for it. -/
structure Known.Yields (K : Known) (ret : Ty) (operand : Operand) : Prop where
  ty : operand.instr.ty = operand.ty
  typed : K.Typed ret operand.instr

theorem Known.Yields.mono {K K' : Known} (hK : K.Le K') {ret : Ty} {operand : Operand}
    (h : K.Yields ret operand) : K'.Yields ret operand :=
  ⟨h.ty, h.typed.mono hK⟩

namespace Gives

variable {α : Type} {ctx : Context} {K : Known} {P : Known → α → Prop} {e left right : Operand}

theorem operand {form : Form Instr} {span : Span} {ty : Ty} {constant : Option Variable}
    (reported : ∀ id, (Instr.mk id span form).ty = ty) (checks : K.Checks ctx.ret form)
    (parts : ∀ c ∈ form.children, K.Typed ctx.ret c) :
    Gives ctx K (do return ⟨← Compiler.node span form, ty, constant⟩) (·.Yields ctx.ret ·) := by
  refine (node span checks parts).bind ?_
  rintro K' _ _ ⟨⟨id, rfl⟩, typed⟩
  exact .pure ⟨reported id, typed⟩

theorem nonVoid {f : Unit → Compiler α} (h : e.ty ≠ .void → Gives ctx K (f ()) P) :
    Gives ctx K (Compiler.nonVoid e >>= f) P := by
  unfold Compiler.nonVoid
  split
  case isTrue => exact .failBind ..
  case isFalse hv => exact .pureBind (h hv)

theorem widen (h : K.Yields ctx.ret e) (target : Ty) :
    Gives ctx K (Compiler.widen e target) fun K' i =>
      K'.Typed ctx.ret i ∧ i.ty = target.widened e.ty := by
  unfold Compiler.widen Ty.widened
  split
  case isTrue =>
    have checks : K.Checks ctx.ret (.convert .float e.instr) := fun _ _ => rfl
    refine (node _ checks ?_).imp ?_
    · exact List.forall_mem_singleton.2 h.typed
    · rintro K' _ _ ⟨⟨id, rfl⟩, typed⟩
      exact ⟨typed, rfl⟩
  case isFalse => exact .pure ⟨h.typed, h.ty⟩

theorem coerce (h : K.Yields ctx.ret e) (target : Ty) (span : Span) :
    Gives ctx K (Compiler.coerce e target span) fun K' i =>
      K'.Typed ctx.ret i ∧ target.Fits i.ty := by
  refine .nonVoid fun _ => .ite (fun accepts => ?_) fun _ => .fail _ _
  refine (widen h target).imp ?_
  rintro K' i _ ⟨typed, ty⟩
  exact ⟨typed, ty ▸ Ty.fits_of_accepts accepts⟩

theorem operandType {op : BinaryOp} {left right : Ty} {span : Span} {f : Ty → Compiler α}
    (h : ∀ ty, operandType? op left right = some ty → Gives ctx K (f ty) P) :
    Gives ctx K (Compiler.operandType op left right span >>= f) P := by
  unfold Compiler.operandType
  split
  · exact .failBind ..
  · split
    case h_1 ty ok => exact .pureBind (h ty ok)
    case h_2 => exact .failBind ..

theorem combine (span : Span) (op : BinaryOp) (hl : K.Yields ctx.ret left)
    (hr : K.Yields ctx.ret right) :
    Gives ctx K (Compiler.combine span op left right) (·.Yields ctx.ret ·) := by
  refine .operandType fun ty ok => (widen hl ty).bind ?_
  rintro K₁ l le ⟨typedL, _⟩
  refine (widen (hr.mono le) ty).bind ?_
  rintro K₂ r le' ⟨typedR, _⟩
  refine operand (fun _ => rfl) (fun _ _ => suits_of_operandType? ok) ?_
  exact List.forall_mem_cons.2 ⟨typedL.mono le', List.forall_mem_singleton.2 typedR⟩

theorem combineLogical (span : Span) (isAnd : Bool) (hl : K.Yields ctx.ret left)
    (hr : K.Yields ctx.ret right) :
    Gives ctx K (Compiler.combineLogical span isAnd left right) (·.Yields ctx.ret ·) := by
  refine .ite (fun _ => .fail _ _) fun _ => .ite (fun _ => .fail _ _) fun _ => ?_
  refine operand (fun _ => rfl) (fun _ _ => trivial) ?_
  exact List.forall_mem_cons.2 ⟨hl.typed, List.forall_mem_singleton.2 hr.typed⟩

theorem connect (span : Span) (connective : Connective) (hl : K.Yields ctx.ret left)
    (hr : K.Yields ctx.ret right) :
    Gives ctx K (Compiler.connect span connective left right) (·.Yields ctx.ret ·) := by
  cases connective with
  | binary op => exact combine span op hl hr
  | logical isAnd => exact combineLogical span isAnd hl hr

end Gives
end Tickwise
