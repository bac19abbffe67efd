import Tickwise.Proofs.Compile.ReadExpressions
set_option autoImplicit false

/-!
# Less room

What a smaller limit on nesting does to the routines for expressions: one that answers within the smaller limit
answers the same as within the larger one, and any other has recorded that nesting is too deep.
-/
namespace Tickwise

open Compile Compiler

/-- Where two routines end differently, the first has failed since nesting is too deep. -/
structure Compiler.Cut {α : Type} (c d : Compiler α) : Prop where
  reads : Reads c
  cuts : ∀ ctx s, c ctx s = d ctx s ∨
    ∃ span, (c ctx s).1 = none ∧ (c ctx s).2.scopes = s.scopes.recordError .tooDeep span

namespace Compiler.Cut

variable {α β σ : Type} {c d : Compiler α}

theorem same (h : Reads c) : Cut c c := ⟨h, fun _ _ => .inl rfl⟩

theorem tooDeep (span : Span) (d : Compiler α) : Cut (fail .tooDeep span) d :=
  ⟨.fail _ _, fun _ _ => .inr ⟨span, rfl, rfl⟩⟩

theorem bind {f g : α → Compiler β} (first : Cut c d) (second : ∀ a, Cut (f a) (g a)) : Cut (c >>= f) (d >>= g) := by
  refine ⟨.bind first.reads fun a => (second a).reads, fun ctx s => ?_⟩
  rw [bind_apply, bind_apply]
  obtain same | ⟨span, failed, recorded⟩ := first.cuts ctx s
  · rw [← same]
    cases answer : c ctx s with
    | mk a? s₁ =>
      cases a? with
      | none => exact .inl rfl
      | some a =>
        have scopes := first.reads.scopes answer
        rw [← scopes]
        exact (second a).cuts ctx s₁
  · cases answer : c ctx s with
    | mk a? s₁ =>
      rw [answer] at failed recorded
      cases failed
      exact .inr ⟨span, rfl, recorded⟩

theorem then_ {f g : α → Compiler β} (first : Reads c) (second : ∀ a, Cut (f a) (g a)) : Cut (c >>= f) (c >>= g) :=
  (same first).bind second

theorem ite {q : Prop} [Decidable q] {c' d' : Compiler α} (hc : Cut c d) (hd : Cut c' d') :
    Cut (if q then c else c') (if q then d else d') := by
  split
  · exact hc
  · exact hd

theorem inFrame (isBlock : Bool) (h : Cut c d) : Cut (inFrame isBlock c) (inFrame isBlock d) := by
  refine ⟨.inFrame isBlock h.reads, fun ctx s => ?_⟩
  unfold Compiler.inFrame
  obtain same | ⟨span, failed, recorded⟩ := h.cuts ctx { s with scopes := s.scopes.push isBlock }
  · rw [same]
    exact .inl rfl
  · refine .inr ⟨span, failed, ?_⟩
    change (c ctx { s with scopes := s.scopes.push isBlock }).2.scopes.pop = _
    rw [recorded]
    unfold ScopeStack.recordError ScopeStack.push ScopeStack.pop
    dsimp only
    split <;> rfl

theorem loop (start : σ) {step step' : σ → Compiler (σ ⊕ α)} (h : ∀ state, Cut (step state) (step' state)) :
    Cut (loop start step) (loop start step') := by
  have iterated (turns : Nat) : ∀ state, Cut (iterate step turns state) (iterate step' turns state) := by
    induction turns with
    | zero => exact fun _ => same (.bind .read fun _ => .fail _ _)
    | succ turns ih =>
      refine fun state => (h state).bind fun next => ?_
      cases next with
      | inl state => exact ih state
      | inr result => exact same (.pure result)
  exact then_ .read fun _ => iterated _ start

theorem commaList (h : Cut c d) : Cut (commaList c) (commaList d) :=
  loop [] fun _ => h.bind fun _ => same (.bind (.eatIf _) fun _ => .ite (.pure _) (.pure _))

end Compiler.Cut

namespace Level

/-- The routines for expressions of a level with less room against those of one with more. -/
structure Cut (lv lv' : Level) : Prop where
  room : lv.room ≤ lv'.room
  expression : Compiler.Cut lv.expression lv'.expression
  ternary : Compiler.Cut lv.ternary lv'.ternary
  binary : ∀ floor, Compiler.Cut (lv.binary floor) (lv'.binary floor)
  unary : Compiler.Cut lv.unary lv'.unary
  primary : Compiler.Cut lv.primary lv'.primary

namespace Cut

open Compiler.Cut

variable {lv lv' : Level}

theorem value (h : lv.Cut lv') : Compiler.Cut (value lv) (value lv') :=
  h.expression.bind fun _ => same (.bind (.nonVoid _) fun _ => .pure _)

theorem integer (h : lv.Cut lv') (cause : CompileError.Cause) : Compiler.Cut (integer lv cause) (integer lv' cause) :=
  h.value.bind fun _ => same (.ite (.pure _) (.fail _ _))

theorem expressionBody (h : lv.Cut lv') : Compiler.Cut (expressionBody lv) (expressionBody lv') := by
  refine h.ternary.bind fun target => then_ .peek? fun token? => ?_
  split
  · exact .ite (then_ .advance? fun _ => then_ (.placeOf ..) fun _ => h.expression.bind fun _ => same (.assignment ..))
      (same (.pure _))
  · exact same (.pure _)

theorem ternaryBody (h : lv.Cut lv') : Compiler.Cut (ternaryBody lv) (ternaryBody lv') := by
  refine (h.binary 0).bind fun cond => then_ (.eatIf _) fun question? => ?_
  split
  · exact same (.pure _)
  · refine .ite (same (.fail _ _)) (h.value.bind fun yes => then_ (.expect ..) fun _ => h.ternary.bind fun no =>
      then_ (.nonVoid no) fun _ => ?_)
    split
    · exact same (.fail _ _)
    · exact same (.bind (.widen ..) fun _ => .bind (.widen ..) fun _ => .bind (.node ..) fun _ => .pure _)

/-- A chain that is too long for the smaller room is cut at the first operator that does not fit. -/
theorem binaryBody (h : lv.Cut lv') (floor : Nat) : Compiler.Cut (binaryBody lv floor) (binaryBody lv' floor) := by
  refine h.unary.bind fun first => loop _ fun (left, chained) => then_ (.eatBinding floor) fun b? => ?_
  split
  · exact same (.pure _)
  · case h_2 span b =>
    by_cases few : chained + 1 > lv.room
    · rw [if_pos few]
      exact tooDeep span _
    · have room := h.room
      rw [if_neg few, if_neg (by omega)]
      exact (h.binary _).bind fun _ => same (.bind (.connect ..) fun _ => .pure _)

theorem access (h : lv.Cut lv') (token : Token) (e : Operand) (place : Place Instr) :
    Compiler.Cut (access lv token e place) (access lv' token e place) := by
  refine then_ .advance? fun _ => ?_
  have loaded (place : Place Instr) :
      Reads (do return ⟨← Compiler.node e.instr.span (.load place), place.ty, none⟩ : Compiler Operand) :=
    .bind (.node ..) fun _ => .pure _
  split
  · refine Compiler.Cut.bind ?_ fun place => same (loaded place)
    unfold indexAccess
    split
    · exact same (.fail _ _)
    · exact (h.integer _).bind fun _ => same (.bind (.expect ..) fun _ => .pure _)
  · exact same (.bind (.fieldAccess ..) loaded)

theorem accesses (h : lv.Cut lv') : Compiler.Cut (accesses lv) (accesses lv') := by
  refine h.primary.bind fun first => loop _ fun e => then_ .peek? fun token? => ?_
  split
  · exact same (.pure _)
  · split
    · exact .ite ((h.access ..).bind fun _ => same (.pure _))
        (same (.ite (.bind .advance? fun _ => .bind (.stepPlace ..) fun _ => .pure _) (.pure _)))
    · exact same (.ite (.fail _ _) (.ite (.fail _ _) (.pure _)))

theorem unaryOperation (h : lv.Cut lv') (span : Span) (op : UnaryOp) :
    Compiler.Cut (unaryOperation lv span op) (unaryOperation lv' span op) :=
  then_ .advance? fun _ => h.unary.bind fun _ => same (.ite (.bind (.node ..) fun _ => .pure _) (.fail _ _))

theorem unaryBody (h : lv.Cut lv') : Compiler.Cut (unaryBody lv) (unaryBody lv') := by
  refine then_ .peek? fun token? => ?_
  split
  · exact h.unaryOperation _ _
  · exact h.unaryOperation _ _
  · exact h.unaryOperation _ _
  · exact then_ .advance? fun _ => h.unary.bind fun _ => same (.ite (.pure _) (.fail _ _))
  · exact then_ .advance? fun _ => h.unary.bind fun _ => same (.stepPlace ..)
  · exact then_ .advance? fun _ => h.unary.bind fun _ => same (.stepPlace ..)
  · exact h.accesses

theorem call (h : lv.Cut lv') (name : Token) : Compiler.Cut (call lv name) (call lv' name) := by
  have resolved (args : List Operand) : Reads (do
      let r ← onScopes? fun s => s.resolveCall name.text name.span (args.map Operand.ty)
      let instrs ← Compiler.widenArgs args r.conversions
      return ⟨← Compiler.node name.span (.call r.callee instrs r.ret), r.ret, none⟩ : Compiler Operand) :=
    .bind (.resolveCall ..) fun _ => .bind (.widenArgs ..) fun _ => .bind (.node ..) fun _ => .pure _
  refine then_ .advance? fun _ => then_ (.eatIf _) fun closing? => ?_
  split
  · exact same (resolved [])
  · exact (Compiler.Cut.commaList h.value).bind fun _ => same (.bind (.expect ..) fun _ => resolved _)

theorem primaryBody (h : lv.Cut lv') : Compiler.Cut (primaryBody lv) (primaryBody lv') := by
  refine then_ .advance? fun token? => ?_
  cases token? with
  | none => exact same (.bind .read fun _ => .fail _ _)
  | some token =>
    dsimp only
    split
    · split
      · exact same (.literal ..)
      · exact same (.fail _ _)
    · split
      · exact same (.literal ..)
      · exact same (.fail _ _)
    · exact same (.literal ..)
    · exact same (.literal ..)
    · exact same (.literal ..)
    · exact same (.bind (.node ..) fun _ => .pure _)
    · exact same (.newObject _)
    · exact h.expression.bind fun _ => same (.bind (.expect ..) fun _ => .pure _)
    · exact then_ (.atOp _) fun _ => .ite (h.call token) (same (.nameUse token))
    · exact same (.fail _ _)

end Cut

theorem cut_ofRoom {limit room : Nat} (h : limit ≤ room) : (ofRoom limit).Cut (ofRoom room) := by
  induction limit generalizing room with
  | zero =>
    have cut {α : Type} (d : Compiler α) : Compiler.Cut (do fail .tooDeep (← here)) d :=
      ⟨.bind .here fun _ => .fail _ _, fun _ _ => .inr ⟨_, rfl, rfl⟩⟩
    exact ⟨Nat.zero_le _, cut _, cut _, fun _ => cut _, cut _, cut _⟩
  | succ limit ih =>
    obtain ⟨room, rfl⟩ : ∃ r, room = r + 1 := ⟨room - 1, by omega⟩
    have inner := ih (Nat.le_of_succ_le_succ h)
    exact ⟨Nat.succ_le_succ inner.room, .inFrame false inner.expressionBody, .inFrame false inner.ternaryBody,
      fun floor => .inFrame false (inner.binaryBody floor), .inFrame false inner.unaryBody,
      .inFrame false inner.primaryBody⟩

end Level
end Tickwise
