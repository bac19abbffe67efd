import Tickwise.Compile.Cursor
set_option autoImplicit false

/-!
# Operands

A compiled expression with its static type and its value when it is constant, the types that
operators admit, implicit conversions, and how operators bind.
-/
namespace Tickwise.Compile

structure Operand where
  instr : Instr
  ty : Ty
  /-- The value that the instruction yields each time, when that is known. -/
  constant : Option Variable

/-- What an operator between two operands does. -/
inductive Connective where
  | binary (op : BinaryOp)
  | logical (isAnd : Bool)
  deriving DecidableEq, Inhabited

/-- How tightly an operator binds, and whether a chain of it groups from the right. -/
structure Binding where
  precedence : Nat
  fromRight : Bool
  connective : Connective
  deriving DecidableEq, Inhabited

def binding? : Operator → Option Binding
  | .or => some ⟨1, false, .logical false⟩
  | .and => some ⟨2, false, .logical true⟩
  | .bitOr => some ⟨3, false, .binary .bitOr⟩
  | .bitXor => some ⟨4, false, .binary .bitXor⟩
  | .bitAnd => some ⟨5, false, .binary .bitAnd⟩
  | .eq => some ⟨6, false, .binary .eq⟩
  | .ne => some ⟨6, false, .binary .ne⟩
  | .lt => some ⟨7, false, .binary .lt⟩
  | .gt => some ⟨7, false, .binary .gt⟩
  | .le => some ⟨7, false, .binary .le⟩
  | .ge => some ⟨7, false, .binary .ge⟩
  | .shiftLeft => some ⟨8, false, .binary .shiftLeft⟩
  | .shiftRight => some ⟨8, false, .binary .shiftRight⟩
  | .shiftRightLogical => some ⟨8, false, .binary .shiftRightLogical⟩
  | .add => some ⟨9, false, .binary .add⟩
  | .sub => some ⟨9, false, .binary .sub⟩
  | .mul => some ⟨10, false, .binary .mul⟩
  | .div => some ⟨10, false, .binary .div⟩
  | .rem => some ⟨10, false, .binary .rem⟩
  | .pow => some ⟨11, true, .binary .pow⟩
  | _ => none

def Binding.rightFloor (b : Binding) : Nat := if b.fromRight then b.precedence - 1 else b.precedence

def compoundOp? (op : Operator) : Option BinaryOp :=
  match (op.compoundBase?.bind binding?).map Binding.connective with
  | some (.binary op) => some op
  | _ => none

def isAssignment (op : Operator) : Bool := op = .assign || op.compoundBase?.isSome

def operandType? (op : BinaryOp) (left right : Ty) : Option Ty :=
  match op with
  | .add => if left = .string ∨ right = .string then some .string else left.promote? right
  | .sub | .mul | .div | .rem | .pow => left.promote? right
  | .bitAnd | .bitOr | .bitXor =>
    if left = right ∧ (left = .int ∨ left = .bool) then some left else none
  | .shiftLeft | .shiftRight | .shiftRightLogical =>
    if left = .int ∧ right = .int then some .int else none
  | .eq | .ne => (left.promote? right).or <|
    if left = right ∧ (left = .bool ∨ left = .string) then some left
    else if left.isReference ∧ right.isReference ∧ left.compatible right then
      some (if left = .null then right else left)
    else none
  | .lt | .gt | .le | .ge => (left.promote? right).or <|
    if left = .string ∧ right = .string then some .string else none

def branchType? (yes no : Ty) : Option Ty :=
  if yes = no then some yes
  else (yes.promote? no).or <|
    if yes.accepts no then some yes else if no.accepts yes then some no else none

/-- The value of an operator on constants. One that would fault is left for the run to report. -/
def foldBinary? (op : BinaryOp) (ty : Ty) (left right : Option Variable) : Option Variable :=
  match left, right with
  | some a, some b => (Heap.empty.binary op a b ty).toOption
  | _, _ => none

def foldLogical? (isAnd : Bool) (left right : Option Variable) : Option Variable :=
  match left.map Slot.toBool, right.map Slot.toBool with
  | some (.ok a), some (.ok b) => some (Slot.ofBool (if isAnd then a && b else a || b))
  | _, _ => none

def foldUnary? (op : UnaryOp) (operand : Option Variable) : Option Variable :=
  operand.bind fun v => (v.unary op).toOption

end Compile

namespace Compiler

open Compile

def nonVoid (operand : Operand) : Compiler Unit :=
  if operand.ty = .void then fail .voidValue operand.instr.span else return ()

def widen (operand : Operand) (target : Ty) : Compiler Instr :=
  if target = .float ∧ operand.ty = .int then node operand.instr.span (.convert .float operand.instr)
  else return operand.instr

def coerce (operand : Operand) (target : Ty) (span : Span) : Compiler Instr := do
  nonVoid operand
  if target.accepts operand.ty then widen operand target else fail .typeMismatch span

def operandType (op : BinaryOp) (left right : Ty) (span : Span) : Compiler Ty := do
  if left = .void ∨ right = .void then fail .voidValue span
  else match operandType? op left right with
    | some ty => return ty
    | none => fail .typeMismatch span

/-- Joins two operands by an operator that computes with both. -/
def combine (span : Span) (op : BinaryOp) (left right : Operand) : Compiler Operand := do
  let operandTy ← operandType op left.ty right.ty span
  let l ← widen left operandTy
  let r ← widen right operandTy
  let instr ← node span (.binary op operandTy l r)
  return {
    instr := instr
    ty := if op.isComparison then .bool else operandTy
    constant := foldBinary? op operandTy left.constant right.constant }

def combineLogical (span : Span) (isAnd : Bool) (left right : Operand) : Compiler Operand := do
  if left.ty ≠ .bool then fail .notBoolean left.instr.span
  else if right.ty ≠ .bool then fail .notBoolean right.instr.span
  else
    let instr ← node span (.logical isAnd left.instr right.instr)
    return ⟨instr, .bool, foldLogical? isAnd left.constant right.constant⟩

def connect (span : Span) (c : Connective) (left right : Operand) : Compiler Operand :=
  match c with
  | .binary op => combine span op left right
  | .logical isAnd => combineLogical span isAnd left right

end Compiler
end Tickwise
