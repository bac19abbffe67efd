import Tickwise.Proofs.Compile.Height
import Tickwise.Proofs.Compile.Precedence
import Tickwise.Proofs.Compile.Rooms
import Tickwise.Proofs.Compile.TandemExpressions
import Tickwise.Proofs.Execution.Expansions
set_option autoImplicit false

/-!
# Compiling an assignment by an operator and its expansion

`x op= e` and `x = x op (e)` compile `e` in front of what ends it, at different depths. With enough room both are
accepted or neither, and what they compile to is an assignment by an operator and its expansion.
-/
namespace Tickwise

open Compile Compiler

def Operator.leavesName : Operator → Bool
  | .leftParen | .leftBracket | .dot | .increment | .decrement => false
  | _ => true

/-- The operators that do not go on with an operand. -/
def Operator.leavesOperand (op : Operator) : Bool :=
  op.leavesName && (binding? op).isNone && decide (op ≠ .question)

theorem Ty.accepts_self (ty : Ty) : ty.accepts ty = true := by simp [Ty.accepts]

namespace Compile

/-- The next token, if there is one, is an operator of a kind. -/
def State.Before (s : State) (kind : Operator → Bool) : Prop :=
  ∀ t ∈ s.rest.head?, ∃ op, t.kind = .operator op ∧ kind op = true

def State.opened (s : State) : State := { s with scopes := s.scopes.push false }

def State.closed (s : State) : State := { s with scopes := s.scopes.pop }

def Operand.ofName (node : NodeId) (span : Span) (x : String) (v : Variable) : Operand :=
  ⟨⟨node, span, .load ⟨v.id, x, [], v.ty⟩⟩, v.ty, none⟩

end Compile

namespace Compiler

variable {α β σ : Type} {ctx : Context} {s s' : State} {lv : Level} {e : Operand}

theorem bind_some {c : Compiler α} {f : α → Compiler β} {a : α} (h : c ctx s = (some a, s')) :
    (c >>= f) ctx s = f a ctx s' := by
  rw [bind_apply, h]

theorem inFrame_some {c : Compiler α} {a : α} (h : c ctx s.opened = (some a, s')) :
    inFrame false c ctx s = (some a, s'.closed) := by
  change ((c ctx s.opened).1, (c ctx s.opened).2.closed) = _
  rw [h]

theorem loop_done {start : σ} {step : σ → Compiler (σ ⊕ α)} {a : α} (turns : 0 < ctx.turns)
    (h : step start ctx s = (some (.inr a), s')) : loop start step ctx s = (some a, s') := by
  obtain ⟨n, more⟩ : ∃ n, ctx.turns = n + 1 := ⟨ctx.turns - 1, by omega⟩
  change iterate step ctx.turns start ctx s = _
  rw [more, iterate, bind_some h]
  rfl

theorem loop_next {start next : σ} {step : σ → Compiler (σ ⊕ α)} {a : α} {s'' : State} (turns : 1 < ctx.turns)
    (first : step start ctx s = (some (.inl next), s')) (h : step next ctx s' = (some (.inr a), s'')) :
    loop start step ctx s = (some a, s'') := by
  obtain ⟨n, more⟩ : ∃ n, ctx.turns = n + 1 + 1 := ⟨ctx.turns - 2, by omega⟩
  change iterate step ctx.turns start ctx s = _
  rw [more, iterate, bind_some first]
  dsimp only
  rw [iterate, bind_some h]
  rfl

/-!
## Operands that end where they are read
-/

theorem accesses_of_primary (turns : 0 < ctx.turns) (read : lv.primary ctx s = (some e, s'))
    (before : s'.Before Operator.leavesName) : accesses lv ctx s = (some e, s') := by
  refine (bind_some read).trans (loop_done turns ?_)
  have peeked : peek? ctx s' = (some s'.rest.head?, s') := rfl
  rw [bind_some peeked]
  cases next : s'.rest.head? with
  | none => rfl
  | some t =>
    obtain ⟨op, kind, leaves⟩ := before _ next
    have other {op' : Operator} (goes : op'.leavesName = false) : t.isOp op' = false := by
      refine decide_eq_false fun same => Bool.false_ne_true (goes.symm.trans ?_)
      rwa [← TokenKind.operator.inj (kind.symm.trans same)]
    dsimp only
    rw [other rfl, other rfl, other rfl, other rfl]
    generalize e.instr.form = form
    cases form <;> rfl

theorem eatBinding_none (floor : Nat) (before : s.Before Operator.leavesOperand) :
    eatBinding floor ctx s = (some none, s) := by
  have peeked : peek? ctx s = (some s.rest.head?, s) := rfl
  unfold eatBinding
  rw [bind_some peeked]
  cases next : s.rest.head? with
  | none => rfl
  | some t =>
    obtain ⟨kind, text, span⟩ := t
    obtain ⟨op, rfl, leaves⟩ := before _ next
    cases op <;> first | rfl | cases leaves

theorem binaryBody_of_unary (turns : 0 < ctx.turns) (floor : Nat) (read : lv.unary ctx s = (some e, s'))
    (before : s'.Before Operator.leavesOperand) : binaryBody lv floor ctx s = (some e, s') :=
  (bind_some read).trans (loop_done turns (bind_some (eatBinding_none floor before)))

theorem ternaryBody_of_binary (read : lv.binary 0 ctx s = (some e, s')) (before : s'.Before Operator.leavesOperand) :
    ternaryBody lv ctx s = (some e, s') := by
  have other : s'.rest.head?.any (·.isOp .question) = false := by
    cases next : s'.rest.head? with
    | none => rfl
    | some t =>
      obtain ⟨kind, text, span⟩ := t
      obtain ⟨op, rfl, leaves⟩ := before _ next
      cases op <;> first | rfl | cases leaves
  have none : eatOp .question ctx s' = (some none, s') := by
    have seen : (get : Compiler State) ctx s' = (some s', s') := rfl
    unfold eatOp eatIf
    rw [bind_some seen, other]
    rfl
  exact (bind_some read).trans (bind_some none)

theorem expressionBody_of_ternary (read : lv.ternary ctx s = (some e, s'))
    (before : s'.Before Operator.endsExpression) :
    expressionBody lv ctx s = (some e, s') := by
  have peeked : peek? ctx s' = (some s'.rest.head?, s') := rfl
  refine (bind_some read).trans ?_
  rw [bind_some peeked]
  cases next : s'.rest.head? with
  | none => rfl
  | some t =>
    obtain ⟨kind, text, span⟩ := t
    obtain ⟨op, rfl, leaves⟩ := before _ next
    cases op <;> first | rfl | cases leaves

section Levels

variable {n : Nat} {t : Token} {x text : String} {span span' : Span} {ts : List Token} {scopes : ScopeStack}
    {node : NodeId}
  {v : Variable}

theorem unary_of_primary (start : t.kind = .identifier ∨ t.kind = .operator .leftParen) (turns : 0 < ctx.turns)
    (read : (Level.ofRoom n).primary ctx (State.mk (t :: ts) scopes node).opened = (some e, s'))
    (before : s'.Before Operator.leavesName) :
    (Level.ofRoom (n + 1)).unary ctx ⟨t :: ts, scopes, node⟩ = (some e, s'.closed) := by
  refine inFrame_some (Eq.trans ?_ (accesses_of_primary turns read before))
  obtain ⟨kind, text, span⟩ := t
  rcases start with rfl | rfl <;> rfl

theorem binary_of_unary (turns : 0 < ctx.turns) (floor : Nat)
    (read : (Level.ofRoom n).unary ctx s.opened = (some e, s')) (before : s'.Before Operator.leavesOperand) :
    (Level.ofRoom (n + 1)).binary floor ctx s = (some e, s'.closed) :=
  inFrame_some (binaryBody_of_unary turns floor read before)

theorem ternary_of_binary (read : (Level.ofRoom n).binary 0 ctx s.opened = (some e, s'))
    (before : s'.Before Operator.leavesOperand) : (Level.ofRoom (n + 1)).ternary ctx s = (some e, s'.closed) :=
  inFrame_some (ternaryBody_of_binary read before)

theorem expression_of_ternary (read : (Level.ofRoom n).ternary ctx s.opened = (some e, s'))
    (before : s'.Before Operator.endsExpression) : (Level.ofRoom (n + 1)).expression ctx s = (some e, s'.closed) :=
  inFrame_some (expressionBody_of_ternary read before)

theorem unary_name (found : scopes.find? x = some v) (turns : 0 < ctx.turns)
    (before : (State.mk ts scopes node).Before Operator.leavesName) :
    (Level.ofRoom (n + 2)).unary ctx ⟨⟨.identifier, x, span⟩ :: ts, scopes, node⟩ =
      (some (.ofName node span x v), ⟨ts, scopes, node + 1⟩) := by
  let s₂ : State := ⟨ts, (scopes.push false).push false, node⟩
  have seen : (get : Compiler State) ctx s₂ = (some s₂, s₂) := rfl
  have found₂ : s₂.scopes.find? x = some v := found
  have used : nameUse ⟨.identifier, x, span⟩ ctx s₂ =
      (some (.ofName node span x v), { s₂ with nextNode := node + 1 }) := by
    unfold nameUse
    rw [bind_some seen]
    dsimp only
    rw [found₂]
    rfl
  have body : primaryBody (Level.ofRoom n) ctx
      ⟨⟨.identifier, x, span⟩ :: ts, (scopes.push false).push false, node⟩ = nameUse ⟨.identifier, x, span⟩ ctx s₂ := by
    cases ts with
    | nil => rfl
    | cons u ts =>
      obtain ⟨kind, text, span'⟩ := u
      obtain ⟨op, rfl, leaves⟩ := before _ rfl
      cases op <;> first | rfl | cases leaves
  have primary : (Level.ofRoom (n + 1)).primary ctx (State.mk (⟨.identifier, x, span⟩ :: ts) scopes node).opened =
      (some (.ofName node span x v), ⟨ts, scopes.push false, node + 1⟩) :=
    inFrame_some (s := (State.mk _ scopes node).opened) (body.trans used)
  exact unary_of_primary (.inl rfl) turns primary before

theorem ternary_name {op : Operator} (found : scopes.find? x = some v) (turns : 0 < ctx.turns)
    (assigns : isAssignment op = true) :
    (Level.ofRoom (n + 4)).ternary ctx ⟨⟨.identifier, x, span⟩ :: ⟨.operator op, text, span'⟩ :: ts, scopes, node⟩ =
      (some (.ofName node span x v), ⟨⟨.operator op, text, span'⟩ :: ts, scopes, node + 1⟩) := by
  have before {s : State} {kind : Operator → Bool} (front : s.rest.head? = some ⟨.operator op, text, span'⟩)
      (holds : kind op = true) : s.Before kind := by
    intro t next
    cases front.symm.trans next
    exact ⟨op, rfl, holds⟩
  have leaves : op.leavesOperand = true := by cases op <;> first | rfl | cases assigns
  have name : op.leavesName = true := by cases op <;> first | rfl | cases assigns
  have found' : ((scopes.push false).push false).find? x = some v := found
  exact ternary_of_binary (s := ⟨_, scopes, node⟩) (binary_of_unary (s := (State.mk _ scopes node).opened) turns 0
    (unary_name found' turns (before rfl name)) (before rfl leaves)) (before rfl leaves)

/-- An assignment to a name compiles the value within a frame of its own, and then assigns. -/
theorem expression_assigning {op : Operator} (found : scopes.find? x = some v) (turns : 0 < ctx.turns)
    (assigns : isAssignment op = true) {o : Operand} :
    (Level.ofRoom (n + 5)).expression ctx ⟨⟨.identifier, x, span⟩ :: ⟨.operator op, text, span'⟩ :: ts, scopes, node⟩ =
        (some o, s') ↔
      ∃ e s₁ s₂, (Level.ofRoom (n + 4)).expression ctx ⟨ts, scopes.push false, node + 1⟩ = (some e, s₁) ∧
        assignment op span' ⟨v.id, x, [], v.ty⟩ e ctx s₁ = (some o, s₂) ∧ s' = s₂.closed := by
  let after : Compiler Operand := do assignment op span' ⟨v.id, x, [], v.ty⟩ (← (Level.ofRoom (n + 4)).expression)
  have body : expressionBody (Level.ofRoom (n + 4)) ctx
      ⟨⟨.identifier, x, span⟩ :: ⟨.operator op, text, span'⟩ :: ts, scopes.push false, node⟩ =
      after ctx ⟨ts, scopes.push false, node + 1⟩ := by
    have found' : (scopes.push false).find? x = some v := found
    refine (bind_some (ternary_name found' turns assigns)).trans ?_
    change (if isAssignment op = true then _ else _ : Compiler Operand) _ _ = _
    rw [if_pos assigns]
    rfl
  constructor
  · intro h
    obtain ⟨s₂, whole, rfl⟩ := some_of_inFrame (c := expressionBody (Level.ofRoom (n + 4))) (s := ⟨_, scopes, node⟩) h
    obtain ⟨e, s₁, read, assigned⟩ := some_of_bind (body.symm.trans whole)
    exact ⟨e, s₁, s₂, read, assigned, rfl⟩
  · rintro ⟨e, s₁, s₂, read, assigned, rfl⟩
    exact inFrame_some (s := ⟨_, scopes, node⟩) (body.trans ((bind_some read).trans assigned))

end Levels

/-!
## Types
-/

/-- A variable of one type and an operand of another go into an operator, and the result into the variable. -/
structure Suited (base : BinaryOp) (ty operand : Ty) : Prop where
  left : ty ≠ .void
  right : operand ≠ .void
  computes : operandType? base ty operand = some ty

theorem operandType?_of_accepts {base : BinaryOp} {left right ty : Ty} (arithmetic : base.isComparison = false)
    (typed : operandType? base left right = some ty) (accepts : left.accepts ty = true) : ty = left := by
  have scalar := scalar_of_operandType? typed arithmetic
  have int (h : ty = .int) : left = .int := by
    subst h
    exact (int_of_operandType? arithmetic typed).1
  cases left <;> cases ty <;> simp_all [Ty.accepts, Ty.isReference]

theorem some_of_operandType_iff {op : BinaryOp} {left right ty : Ty} {span : Span} :
    operandType op left right span ctx s = (some ty, s') ↔
      (left ≠ .void ∧ right ≠ .void) ∧ operandType? op left right = some ty ∧ s' = s := by
  unfold operandType
  by_cases void : left = .void ∨ right = .void
  · rw [if_pos void]
    exact ⟨nofun, fun h => absurd void (not_or.2 h.1)⟩
  · rw [if_neg void]
    cases operandType? op left right with
    | none => exact ⟨nofun, nofun⟩
    | some ty' =>
      refine ⟨fun h => ?_, ?_⟩
      · cases h
        exact ⟨not_or.1 void, rfl, rfl⟩
      · rintro ⟨-, same, rfl⟩
        cases same
        rfl

theorem nonVoid_bind {f : Unit → Compiler β} {b : β} :
    (nonVoid e >>= f) ctx s = (some b, s') ↔ e.ty ≠ .void ∧ f () ctx s = (some b, s') := by
  by_cases void : e.ty = .void
  · refine ⟨fun h => ?_, fun h => absurd void h.1⟩
    unfold nonVoid at h
    rw [if_pos void] at h
    cases h
  · have passes : nonVoid e ctx s = (some (), s) := by
      unfold nonVoid
      rw [if_neg void]
      rfl
    rw [bind_some passes]
    exact ⟨fun h => ⟨void, h⟩, fun h => h.2⟩

variable {base : BinaryOp} {op : Operator} {span : Span} {place : Place Instr} {o : Operand}

theorem assignment_compound (compound : compoundOp? op = some base) :
    assignment op span place e ctx s = (some o, s') ↔ Suited base place.ty e.ty ∧
      o = ⟨⟨s.nextNode, span, .store place (some base) place.ty e.instr⟩, place.ty, none⟩ ∧
      s' = { s with nextNode := s.nextNode + 1 } := by
  have compounds : op ≠ .assign := by
    rintro rfl
    cases compound
  unfold assignment
  rw [nonVoid_bind, if_neg compounds, compound]
  dsimp only
  constructor
  · rintro ⟨right, h⟩
    obtain ⟨ty, s₁, typed, stored⟩ := some_of_bind h
    obtain ⟨⟨left, -⟩, computes, rfl⟩ := some_of_operandType_iff.1 typed
    split at stored
    case isTrue accepts =>
      obtain rfl := operandType?_of_accepts (compoundOp?_arithmetic compound) computes accepts
      cases stored
      exact ⟨⟨left, right, computes⟩, rfl, rfl⟩
    case isFalse => cases stored
  · rintro ⟨⟨left, right, computes⟩, rfl, rfl⟩
    refine ⟨right, ?_⟩
    have typed : operandType base place.ty e.ty span ctx s = (some place.ty, s) :=
      some_of_operandType_iff.2 ⟨⟨left, right⟩, computes, rfl⟩
    rw [bind_some typed, if_pos (Ty.accepts_self place.ty)]
    rfl

theorem accepts_of_assignment (h : assignment .assign span place e ctx s = (some o, s')) :
    place.ty.accepts e.ty = true := by
  unfold assignment at h
  rw [nonVoid_bind, if_pos rfl] at h
  obtain ⟨i, s₁, coerced, -⟩ := some_of_bind h.2
  unfold coerce at coerced
  obtain ⟨-, widened⟩ := nonVoid_bind.1 coerced
  split at widened
  case isTrue accepts => exact accepts
  case isFalse => cases widened

theorem assignment_same (ctx : Context) (s : State) (span : Span) (same : e.ty = place.ty) (nonVoid : place.ty ≠ .void) :
    assignment .assign span place e ctx s =
      (some ⟨⟨s.nextNode, span, .store place none place.ty e.instr⟩, place.ty, none⟩,
        { s with nextNode := s.nextNode + 1 }) := by
  have float : ¬ (place.ty = .float ∧ e.ty = .int) := fun h => by
    rw [same, h.1] at h
    cases h.2
  have coerced : coerce e place.ty span ctx s = (some e.instr, s) := by
    unfold coerce
    refine nonVoid_bind.2 ⟨same ▸ nonVoid, ?_⟩
    rw [if_pos (same ▸ place.ty.accepts_self)]
    unfold widen
    rw [if_neg float]
    rfl
  unfold assignment
  refine nonVoid_bind.2 ⟨same ▸ nonVoid, ?_⟩
  rw [if_pos rfl, bind_some coerced]
  rfl

/-- The conversion of the right operand, if the operator computes in floats and it is an integer. -/
theorem widen_operates (target : Ty) (e : Operand) (ctx : Context) (s : State) : ∃ cs right s',
    widen e target ctx s = (some right, s') ∧ s'.rest = s.rest ∧ e.instr.Operates target cs right := by
  unfold widen
  split
  case isTrue h => exact ⟨_, _, _, rfl, rfl, .converted h.1 rfl⟩
  case isFalse => exact ⟨[], _, _, rfl, rfl, .same⟩

/-- What an operator between a name and an operand compiles to, if the types suit. -/
theorem combine_suited (x : String) {v : Variable} (ctx : Context) (s : State) (node : NodeId) (span span' : Span)
    (arithmetic : base.isComparison = false) (suited : Suited base v.ty e.ty) : ∃ (sum : Operand) (s' : State),
    combine span base (.ofName node span' x v) e ctx s = (some sum, s') ∧ s'.rest = s.rest ∧ sum.ty = v.ty ∧
      ∃ cs right, sum.instr.form = .binary base v.ty (Operand.ofName node span' x v).instr right ∧
        e.instr.Operates v.ty cs right := by
  obtain ⟨cs, right, s₁, widened, rest, operates⟩ := widen_operates v.ty e ctx s
  have typed : operandType base v.ty e.ty span ctx s = (some v.ty, s) :=
    some_of_operandType_iff.2 ⟨⟨suited.left, suited.right⟩, suited.computes, rfl⟩
  have kept : widen (.ofName node span' x v) v.ty ctx s = (some (Operand.ofName node span' x v).instr, s) := by
    unfold widen
    rw [if_neg]
    · rfl
    · rintro ⟨float, int⟩
      cases float.symm.trans int
  refine ⟨_, _, (bind_some typed).trans ((bind_some kept).trans (bind_some widened)), rest, ?_, cs, right,
    rfl, operates⟩
  exact if_neg (by simp [arithmetic])

theorem computes_of_combine {left right : Operand} (h : combine span base left right ctx s = (some o, s')) :
    (left.ty ≠ .void ∧ right.ty ≠ .void) ∧ s'.rest = s.rest ∧ ∃ ty, operandType? base left.ty right.ty = some ty ∧
      o.ty = if base.isComparison then .bool else ty := by
  obtain ⟨ty, s₁, typed, h₁⟩ := some_of_bind h
  obtain ⟨l, s₂, widenedL, h₂⟩ := some_of_bind h₁
  obtain ⟨r, s₃, widenedR, h₃⟩ := some_of_bind h₂
  obtain ⟨i, s₄, made, h₄⟩ := some_of_bind h₃
  cases made
  cases h₄
  obtain ⟨kept, computes, rfl⟩ := some_of_operandType_iff.1 typed
  exact ⟨kept, (some_of_widen widenedR).2.trans (some_of_widen widenedL).2, ty, computes, rfl⟩

/-!
## An operator and a parenthesis
-/

section Sum

variable {n : Nat} {x text text' : String} {span' span'' : Span} {u : Token} {ts us : List Token} {scopes : ScopeStack}
  {node : NodeId} {v : Variable}

theorem State.before_of_ends {kind : Operator → Bool} (ends : ∀ t ∈ s.rest.head?, t.Ends)
    (covers : ∀ op, Operator.endsExpression op = true → kind op = true) : s.Before kind := fun t next =>
  have ⟨op, same, holds⟩ := ends t next
  ⟨op, same, covers op holds⟩

theorem leavesName_of_ends (op : Operator) (h : op.endsExpression = true) : op.leavesName = true := by
  cases op <;> first | rfl | cases h

theorem leavesOperand_of_ends (op : Operator) (h : op.endsExpression = true) : op.leavesOperand = true := by
  cases op <;> first | rfl | cases h

theorem binary_parenthesized (scopes : ScopeStack) (text : String) (span : Span) (turns : 0 < ctx.turns) (floor : Nat)
    (read : (Level.ofRoom n).expression ctx ⟨ts, scopes.within 3, node⟩ = (some e, s')) (front : s'.rest = u :: us)
    (closes : u.isOp .rightParen = true) (ends : ∀ t ∈ us.head?, t.Ends) : ∃ s'' : State, s''.rest = us ∧
      (Level.ofRoom (n + 3)).binary floor ctx ⟨⟨.operator .leftParen, text, span⟩ :: ts, scopes, node⟩ =
        (some e, s'') := by
  have close : Compiler.expectOp .rightParen .closeParen ctx s' = (some u, s'.behind) := by
    have seen : (get : Compiler State) ctx s' = (some s', s') := rfl
    have next : s'.rest.head?.any (·.isOp .rightParen) = true := by rw [front]; exact closes
    have eaten : Compiler.eatOp .rightParen ctx s' = (some (some u), s'.behind) := by
      unfold Compiler.eatOp Compiler.eatIf
      rw [bind_some seen, if_pos next]
      change (some s'.rest.head?, s'.behind) = _
      rw [front]
      rfl
    exact bind_some eaten
  have tail : s'.behind.rest = us := by
    change s'.rest.tail = us
    rw [front]
    rfl
  have before {s : State} (rest : s.rest = us) : s.Before Operator.leavesOperand :=
    State.before_of_ends (rest ▸ ends) leavesOperand_of_ends
  have primary : (Level.ofRoom (n + 1)).primary ctx
      (State.mk (⟨.operator .leftParen, text, span⟩ :: ts) ((scopes.push false)) node).opened =
        (some e, s'.behind.closed) :=
    inFrame_some (s := ⟨_, (scopes.push false).push false, node⟩) ((bind_some read).trans (bind_some close))
  have unary :
      (Level.ofRoom (n + 2)).unary ctx (State.mk (⟨.operator .leftParen, text, span⟩ :: ts) scopes node).opened =
      (some e, s'.behind.closed.closed) :=
    unary_of_primary (.inr rfl) turns primary
      (State.before_of_ends (s := s'.behind.closed) (tail ▸ ends) leavesName_of_ends)
  exact ⟨s'.behind.closed.closed.closed, tail, binary_of_unary turns floor unary (before tail)⟩

theorem expression_of_parenthesized {floor : Nat}
    (h : (Level.ofRoom (n + 3)).binary floor ctx ⟨⟨.operator .leftParen, text, span⟩ :: ts, scopes, node⟩ =
      (some e, s')) :
    ∃ e' s₁, (Level.ofRoom n).expression ctx ⟨ts, scopes.within 3, node⟩ = (some e', s₁) ∧
      s₁.rest.head?.any (·.isOp .rightParen) = true := by
  obtain ⟨_, whole, -⟩ := some_of_inFrame (c := binaryBody (Level.ofRoom (n + 2)) floor) (s := ⟨_, scopes, node⟩) h
  obtain ⟨_, _, unary, -⟩ := some_of_bind whole
  obtain ⟨_, whole, -⟩ := some_of_inFrame (c := accesses (Level.ofRoom (n + 1)))
    (s := ⟨_, scopes.push false, node⟩) unary
  obtain ⟨e', s₁, primary, -⟩ := some_of_bind whole
  have inside : inFrame false (primaryBody (Level.ofRoom n)) ctx
    ⟨⟨.operator .leftParen, text, span⟩ :: ts, (scopes.push false).push false, node⟩ = (some e', s₁) := primary
  obtain ⟨_, whole, -⟩ := some_of_inFrame inside
  obtain ⟨_, _, skipped, whole⟩ := some_of_bind whole
  cases skipped
  have body : (do let inner ← (Level.ofRoom n).expression; let _ ← expectOp .rightParen .closeParen; return inner) ctx
    ⟨ts, scopes.within 3, node⟩ = _ := whole
  obtain ⟨e'', s₂, read, whole⟩ := some_of_bind body
  obtain ⟨_, _, close, -⟩ := some_of_bind whole
  exact ⟨e'', s₂, read, (some_of_expect close).1⟩

section

variable {bop : Operator} {b : Binding} (bound : binding? bop = some b) (does : b.connective = .binary base)
  (found : scopes.find? x = some v)

include bound in
theorem eatBinding_some :
    eatBinding 0 ctx ⟨⟨.operator bop, text, span⟩ :: ts, scopes, node⟩ =
      (some (some (span, b)), ⟨ts, scopes, node⟩) := by
  cases bop <;> cases bound <;> rfl

/-- What a turn of a chain of operators does behind the first of them. -/
def joining (n : Nat) (span : Span) (b : Binding) (left : Operand) : Compiler ((Operand × Nat) ⊕ Operand) := do
  let right ← (Level.ofRoom n).binary b.rightFloor
  return .inl (← connect span b.connective left right, 1)

include bound found in
theorem binaryBody_name (turns : 0 < ctx.turns) :
    ∃ step : Operand × Nat → Compiler ((Operand × Nat) ⊕ Operand),
      (∀ e k s, s.Before Operator.leavesOperand → step (e, k) ctx s = (some (.inr e), s)) ∧
      step (.ofName node span x v, 0) ctx ⟨⟨.operator bop, text, span'⟩ :: ts, scopes, node + 1⟩ =
        joining (n + 2) span' b (.ofName node span x v) ctx ⟨ts, scopes, node + 1⟩ ∧
      binaryBody (Level.ofRoom (n + 2)) 0 ctx
          ⟨⟨.identifier, x, span⟩ :: ⟨.operator bop, text, span'⟩ :: ts, scopes, node⟩ =
        loop (.ofName node span x v, 0) step ctx ⟨⟨.operator bop, text, span'⟩ :: ts, scopes, node + 1⟩ := by
  have before : (State.mk (⟨.operator bop, text, span'⟩ :: ts) scopes node).Before Operator.leavesName := by
    intro t next
    cases next
    refine ⟨bop, rfl, ?_⟩
    cases bop <;> first | rfl | cases bound
  refine ⟨_, fun e k s quiet => ?_, ?_, bind_some (unary_name found turns before)⟩
  · exact bind_some (eatBinding_none 0 quiet)
  · exact bind_some (eatBinding_some bound)

include does

theorem joining_some {s₁ s₂ : State} {sum : Operand}
    (read : (Level.ofRoom n).binary b.rightFloor ctx s = (some e, s₁))
    (combined : combine span base (.ofName node span' x v) e ctx s₁ = (some sum, s₂)) :
    joining n span b (.ofName node span' x v) ctx s = (some (.inl (sum, 1)), s₂) := by
  have connected : connect span b.connective (.ofName node span' x v) e ctx s₁ = (some sum, s₂) := by
    rw [does]
    exact combined
  exact (bind_some read).trans (bind_some connected)

theorem some_of_joining {r : (Operand × Nat) ⊕ Operand}
    (h : joining n span b (.ofName node span' x v) ctx s = (some r, s')) :
    ∃ e s₁ sum s₂, (Level.ofRoom n).binary b.rightFloor ctx s = (some e, s₁) ∧
      combine span base (.ofName node span' x v) e ctx s₁ = (some sum, s₂) := by
  obtain ⟨e, s₁, read, h₁⟩ := some_of_bind h
  obtain ⟨sum, s₂, connected, -⟩ := some_of_bind h₁
  rw [does] at connected
  exact ⟨e, s₁, sum, s₂, read, connected⟩

include bound found

theorem expression_sum (text : String) (turns : 1 < ctx.turns) {s₁ s₂ : State} {sum : Operand}
    (read : (Level.ofRoom (n + 2)).binary b.rightFloor ctx ⟨ts, scopes.within 3, node + 1⟩ = (some e, s₁))
    (combined : combine span' base (.ofName node span x v) e ctx s₁ = (some sum, s₂))
    (ends : ∀ t ∈ s₂.rest.head?, t.Ends) : ∃ s'' : State, s''.rest = s₂.rest ∧
      (Level.ofRoom (n + 5)).expression ctx
        ⟨⟨.identifier, x, span⟩ :: ⟨.operator bop, text, span'⟩ :: ts, scopes, node⟩ = (some sum, s'') := by
  have found' : (scopes.within 3).find? x = some v := found
  obtain ⟨step, stops, first, whole⟩ := @binaryBody_name ctx span n x text span' ts (scopes.within 3) node v bop b bound
    found' (Nat.lt_of_succ_lt turns)
  have before : s₂.Before Operator.leavesOperand := State.before_of_ends ends leavesOperand_of_ends
  have body := whole.trans (loop_next turns (first.trans (joining_some does read combined)) (stops sum 1 s₂ before))
  have binary : (Level.ofRoom (n + 3)).binary 0 ctx
      ⟨⟨.identifier, x, span⟩ :: ⟨.operator bop, text, span'⟩ :: ts, (scopes.push false).push false, node⟩ =
      (some sum, s₂.closed) := inFrame_some (s := ⟨_, scopes.within 2, node⟩) body
  have ternary : (Level.ofRoom (n + 4)).ternary ctx
      (State.mk (⟨.identifier, x, span⟩ :: ⟨.operator bop, text, span'⟩ :: ts) scopes node).opened =
      (some sum, s₂.closed.closed) := ternary_of_binary (s := ⟨_, scopes.push false, node⟩) binary before
  exact ⟨s₂.closed.closed.closed, rfl, expression_of_ternary ternary (State.before_of_ends ends fun _ => id)⟩

theorem sum_of_expression (turns : 0 < ctx.turns) {o : Operand} (h : (Level.ofRoom (n + 5)).expression ctx
      ⟨⟨.identifier, x, span⟩ :: ⟨.operator bop, text, span'⟩ :: ts, scopes, node⟩ = (some o, s')) :
    ∃ e s₁ sum s₂, (Level.ofRoom (n + 2)).binary b.rightFloor ctx ⟨ts, scopes.within 3, node + 1⟩ = (some e, s₁) ∧
      combine span' base (.ofName node span x v) e ctx s₁ = (some sum, s₂) := by
  have found' : (scopes.within 3).find? x = some v := found
  obtain ⟨step, -, first, whole⟩ := @binaryBody_name ctx span n x text span' ts (scopes.within 3) node v bop b bound
    found' turns
  obtain ⟨_, inside, -⟩ := some_of_inFrame (c := expressionBody (Level.ofRoom (n + 4))) (s := ⟨_, scopes, node⟩) h
  obtain ⟨e₁, s₁, ternary, -⟩ := some_of_bind inside
  obtain ⟨_, inside, -⟩ := some_of_inFrame (c := ternaryBody (Level.ofRoom (n + 3))) (s := ⟨_, scopes.push false, node⟩)
    ternary
  obtain ⟨e₂, s₂, binary, -⟩ := some_of_bind inside
  have inside : inFrame false (binaryBody (Level.ofRoom (n + 2)) 0) ctx
    ⟨⟨.identifier, x, span⟩ :: ⟨.operator bop, text, span'⟩ :: ts, scopes.within 2, node⟩ = (some e₂, s₂) := binary
  obtain ⟨s₃, body, -⟩ := some_of_inFrame inside
  have looped := whole.symm.trans body
  obtain ⟨k, more⟩ : ∃ k, ctx.turns = k + 1 := ⟨ctx.turns - 1, by omega⟩
  change iterate step ctx.turns _ ctx _ = _ at looped
  rw [more, iterate] at looped
  obtain ⟨r, s₄, stepped, -⟩ := some_of_bind looped
  exact some_of_joining does (first.symm.trans stepped)

end

end Sum

end Compiler
end Tickwise
