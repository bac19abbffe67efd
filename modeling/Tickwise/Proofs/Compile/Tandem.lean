import Tickwise.Proofs.Compile.BesideExpressions
import Tickwise.Proofs.Compile.Successes
set_option autoImplicit false

/-!
# Routines in tandem

A routine for expressions runs twice, each time in front of the tokens of one expression. What is behind the expression
may differ, if it ends the expression, and so may the ranges of the tokens and the number of scope frames. Both runs
answer, in front of the same tokens again, or both fail.
-/
namespace Tickwise

open Compile Compiler

def Operator.opens : Operator → Bool
  | .leftParen | .leftBracket | .question => true
  | _ => false

def Operator.closes : Operator → Bool
  | .rightParen | .rightBracket | .colon => true
  | _ => false

def Operator.endsExpression : Operator → Bool
  | .semicolon | .comma | .colon | .rightParen | .rightBracket | .rightBrace => true
  | _ => false

def Operator.openBehind? (op : Operator) (depth : Nat) : Option Nat :=
  if op.opens then some (depth + 1)
  else if op.closes then (if depth = 0 then none else some (depth - 1))
  else some depth

namespace Token

def openBehind? (t : Token) (depth : Nat) : Option Nat :=
  match t.kind with
  | .operator op => op.openBehind? depth
  | _ => some depth

/-- The same token at any range. -/
abbrev Same : Token → Token → Prop := Token.Alike fun _ _ => True

def Ends (t : Token) : Prop := ∃ op, t.kind = .operator op ∧ op.endsExpression = true

end Token

/-- What is behind an expression on either side. -/
structure Compile.Tails where
  left : List Token
  right : List Token
  leftEnds : ∀ t ∈ left.head?, t.Ends
  rightEnds : ∀ t ∈ right.head?, t.Ends

/-- The same tokens up to the end of an expression, with `depth` open in front of them and none at the end. -/
inductive Compile.Enclosed (K : Tails) : (depth : Nat) → List Token → List Token → Prop
  | done : Enclosed K 0 K.left K.right
  | step {depth behind : Nat} {t u : Token} {ts us : List Token} (same : t.Same u)
    (opens : t.openBehind? depth = some behind) (more : Enclosed K behind ts us) : Enclosed K depth (t :: ts) (u :: us)

structure ScopeStack.Sees (s t : ScopeStack) : Prop where
  find? : ∀ name, s.find? name = t.find? name
  candidates : ∀ name, s.candidates name = t.candidates name

structure Compile.Context.Sees (ctx ctx' : Context) : Prop where
  env : ctx.env = ctx'.env
  class? : ctx.class? = ctx'.class?

/-- Two runs begin where the same is in sight, each in front of its tokens, and no loop runs out of turns. -/
structure Compile.Abreast (ts us : List Token) (ctx ctx' : Context) (s t : State) : Prop where
  contexts : ctx.Sees ctx'
  scopes : s.scopes.Sees t.scopes
  left : s.rest = ts
  right : t.rest = us
  turns : ts.length < ctx.turns
  turns' : us.length < ctx'.turns

/-- A run has kept the scopes, and has read some tokens or none. -/
structure Compile.State.Onward (s s' : State) : Prop where
  scopes : s'.scopes = s.scopes
  rest : s'.rest.length ≤ s.rest.length

/-- How two runs end: both with an answer, or both without. -/
inductive Compile.EndTandem {α β : Type} (Q : List Token → List Token → α → β → Prop) (s t : State) :
    Option α × State → Option β × State → Prop
  | some {s' t' : State} {a : α} {b : β} (left : s.Onward s') (right : t.Onward t') (answers : Q s'.rest t'.rest a b) :
    EndTandem Q s t (some a, s') (some b, t')
  | none (s' t' : State) : EndTandem Q s t (none, s') (none, t')

structure Tandem {α β : Type} (ts us : List Token) (c : Compiler α) (d : Compiler β)
    (Q : List Token → List Token → α → β → Prop) : Prop where
  ends : ∀ {ctx ctx' s t}, Abreast ts us ctx ctx' s t → EndTandem Q s t (c ctx s) (d ctx' t)

/-- How a turn of two loops ends: both read on, or both are done. -/
inductive Compile.Turned {α β σ τ : Type} (I : List Token → List Token → σ → τ → Prop)
    (Q : List Token → List Token → α → β → Prop) (ts us ts' us' : List Token) : σ ⊕ α → τ ⊕ β → Prop
  | on {a : σ} {b : τ} (kept : I ts' us' a b) (left : ts'.length < ts.length) (right : us'.length < us.length) :
    Turned I Q ts us ts' us' (.inl a) (.inl b)
  | done {a : α} {b : β} (answers : Q ts' us' a b) : Turned I Q ts us ts' us' (.inr a) (.inr b)

def Compiler.Fails {α : Type} (ts : List Token) (c : Compiler α) : Prop := ∀ ctx s, s.rest = ts → (c ctx s).1 = none

theorem Compile.State.Onward.refl (s : State) : s.Onward s := ⟨rfl, Nat.le_refl _⟩

theorem Compile.State.Onward.trans {s s' s'' : State} (h : s.Onward s') (h' : s'.Onward s'') : s.Onward s'' :=
  ⟨h'.scopes.trans h.scopes, Nat.le_trans h'.rest h.rest⟩

theorem ScopeStack.Sees.push {s t : ScopeStack} (h : s.Sees t) (isBlock : Bool) :
    (s.push isBlock).Sees (t.push isBlock) :=
  ⟨h.find?, h.candidates⟩

namespace Compile.Enclosed

variable {K : Tails} {depth behind : Nat} {ts us : List Token}

theorem front (h : Enclosed K depth ts us) :
    (∃ t u ts' us' behind, ts = t :: ts' ∧ us = u :: us' ∧ t.Same u ∧ t.openBehind? depth = some behind ∧
        Enclosed K behind ts' us') ∨
      depth = 0 ∧ (∀ t ∈ ts.head?, t.Ends) ∧ ∀ u ∈ us.head?, u.Ends := by
  cases h with
  | done => exact .inr ⟨rfl, K.leftEnds, K.rightEnds⟩
  | step same opens more => exact .inl ⟨_, _, _, _, _, rfl, rfl, same, opens, more⟩

end Compile.Enclosed

namespace Tandem

variable {α α' β β' σ σ' : Type} {K : Tails} {ts us : List Token} {c : Compiler α} {d : Compiler α'}
  {Q : List Token → List Token → α → α' → Prop} {Q' : List Token → List Token → β → β' → Prop} {A : α → α' → Prop}
  {G : List Token → List Token → Prop} {span span' : Span} {depth behind : Nat}

theorem pure {a : α} {b : α'} (h : Q ts us a b) : Tandem ts us (pure a) (pure b) Q :=
  ⟨fun {_ _ s t} abreast => .some (.refl s) (.refl t) (abreast.left ▸ abreast.right ▸ h)⟩

theorem fails (left : Fails ts c) (right : Fails us d) : Tandem ts us c d Q := by
  refine ⟨fun {ctx ctx' s t} abreast => ?_⟩
  have none := left ctx s abreast.left
  have none' := right ctx' t abreast.right
  generalize c ctx s = r at none
  generalize d ctx' t = r' at none'
  obtain ⟨_, s'⟩ := r
  obtain ⟨_, t'⟩ := r'
  cases none
  cases none'
  exact .none s' t'

theorem fail (cause cause' : CompileError.Cause) (span span' : Span) :
    Tandem ts us (Compiler.fail cause span) (Compiler.fail cause' span') Q :=
  ⟨fun _ => .none ..⟩

theorem bind {f : α → Compiler β} {g : α' → Compiler β'} (first : Tandem ts us c d Q)
    (second : ∀ {ts' us' a b}, ts'.length ≤ ts.length → us'.length ≤ us.length → Q ts' us' a b →
      Tandem ts' us' (f a) (g b) Q') : Tandem ts us (c >>= f) (d >>= g) Q' := by
  refine ⟨fun {ctx ctx' s t} abreast => ?_⟩
  have ends := first.ends abreast
  rw [bind_apply, bind_apply]
  generalize c ctx s = r at ends
  generalize d ctx' t = r' at ends
  cases ends with
  | none => exact .none ..
  | @some s' t' a b left right answers =>
    have le : s'.rest.length ≤ ts.length := abreast.left ▸ left.rest
    have le' : t'.rest.length ≤ us.length := abreast.right ▸ right.rest
    have abreast' : Abreast s'.rest t'.rest ctx ctx' s' t' :=
      ⟨abreast.contexts, left.scopes.symm ▸ right.scopes.symm ▸ abreast.scopes, rfl, rfl,
        Nat.lt_of_le_of_lt le abreast.turns, Nat.lt_of_le_of_lt le' abreast.turns'⟩
    have ends := (second le le' answers).ends abreast'
    dsimp only
    generalize f a ctx s' = r at ends ⊢
    generalize g b ctx' t' = r' at ends ⊢
    cases ends with
    | none => exact .none ..
    | some onward onward' answers => exact .some (left.trans onward) (right.trans onward') answers

theorem imp {Q₁ : List Token → List Token → α → α' → Prop} (h : Tandem ts us c d Q)
    (weaker : ∀ {ts' us' a b}, ts'.length ≤ ts.length → us'.length ≤ us.length → Q ts' us' a b → Q₁ ts' us' a b) :
    Tandem ts us c d Q₁ := by
  have same {γ : Type} (c : Compiler γ) : c = c >>= Pure.pure := by
    funext ctx s
    rw [bind_apply]
    rcases c ctx s with ⟨_ | a, s'⟩ <;> rfl
  rw [same c, same d]
  exact h.bind fun le le' answers => pure (weaker le le' answers)

theorem next {f : α → Compiler β} {g : α' → Compiler β'} (first : Tandem ts us c d (Inside G A))
    (second : ∀ {ts us a b}, G ts us → A a b → Tandem ts us (f a) (g b) Q') : Tandem ts us (c >>= f) (d >>= g) Q' :=
  first.bind fun _ _ h => second h.1 h.2

theorem see {f : α → Compiler β} {g : α' → Compiler β'} (first : Tandem ts us c d (Here ts us A))
    (second : ∀ {a b}, A a b → Tandem ts us (f a) (g b) Q') : Tandem ts us (c >>= f) (d >>= g) Q' := by
  refine first.bind ?_
  rintro _ _ a b - - ⟨rfl, rfl, h⟩
  exact second h

theorem stuck {f : α → Compiler β} {g : α' → Compiler β'} (left : Fails ts c) (right : Fails us d) :
    Tandem ts us (c >>= f) (d >>= g) Q' :=
  (fails (Q := fun _ _ _ _ => False) left right).bind fun _ _ none => none.elim

theorem ite {p : Prop} [Decidable p] {c' : Compiler α} {d' : Compiler α'} (yes : p → Tandem ts us c d Q)
    (no : ¬ p → Tandem ts us c' d' Q) : Tandem ts us (if p then c else c') (if p then d else d') Q := by
  split
  · exact yes ‹_›
  · exact no ‹_›

theorem ask {f : Context → Compiler β} {g : Context → Compiler β'}
    (h : ∀ {ctx ctx'}, ctx.Sees ctx' → Tandem ts us (f ctx) (g ctx') Q') : Tandem ts us (read >>= f) (read >>= g) Q' :=
  ⟨fun abreast => (h abreast.contexts).ends abreast⟩

theorem look {g : Context → State → α} {g' : Context → State → α'} (hc : ∀ ctx s, c ctx s = (some (g ctx s), s))
    (hd : ∀ ctx s, d ctx s = (some (g' ctx s), s))
    (ha : ∀ ctx ctx' s t, Abreast ts us ctx ctx' s t → A (g ctx s) (g' ctx' t)) : Tandem ts us c d (Here ts us A) := by
  refine ⟨fun {ctx ctx' s t} abreast => ?_⟩
  rw [hc, hd]
  exact .some (.refl s) (.refl t) ⟨abreast.left, abreast.right, ha _ _ _ _ abreast⟩

theorem get : Tandem ts us get get
    (Here ts us fun (s t : State) => s.scopes.Sees t.scopes ∧ s.rest = ts ∧ t.rest = us) :=
  look (fun _ _ => rfl) (fun _ _ => rfl) fun _ _ _ _ abreast => ⟨abreast.scopes, abreast.left, abreast.right⟩

theorem inFrame (isBlock : Bool) (h : Tandem ts us c d Q) :
    Tandem ts us (Compiler.inFrame isBlock c) (Compiler.inFrame isBlock d) Q := by
  refine ⟨fun {ctx ctx' s t} abreast => ?_⟩
  let s₁ : State := { s with scopes := s.scopes.push isBlock }
  let t₁ : State := { t with scopes := t.scopes.push isBlock }
  have ends := h.ends (s := s₁) (t := t₁) { abreast with scopes := abreast.scopes.push isBlock }
  unfold Compiler.inFrame
  let closed {γ : Type} (r : Option γ × State) : Option γ × State := (r.1, { r.2 with scopes := r.2.scopes.pop })
  change EndTandem Q s t (closed (c ctx s₁)) (closed (d ctx' t₁))
  have popped {s s' : State} (h : { s with scopes := s.scopes.push isBlock }.Onward s') :
      s.Onward { s' with scopes := s'.scopes.pop } := ⟨congrArg ScopeStack.pop h.scopes, h.rest⟩
  generalize c ctx s₁ = r at ends
  generalize d ctx' t₁ = r' at ends
  cases ends with
  | none => exact .none ..
  | some left right answers => exact .some (popped left) (popped right) answers

theorem loop {start : σ} {start' : σ'} {step : σ → Compiler (σ ⊕ α)} {step' : σ' → Compiler (σ' ⊕ α')}
    (I : List Token → List Token → σ → σ' → Prop) (h : I ts us start start')
    (turn : ∀ {ts us a b}, I ts us a b → Tandem ts us (step a) (step' b) (Turned I Q ts us)) :
    Tandem ts us (Compiler.loop start step) (Compiler.loop start' step') Q := by
  have iterated (n : Nat) : ∀ {n' ts us a b}, I ts us a b → ts.length < n → us.length < n' →
      Tandem ts us (Compiler.iterate step n a) (Compiler.iterate step' n' b) Q := by
    induction n with
    | zero => exact fun _ turns => absurd turns (Nat.not_lt_zero _)
    | succ n ih =>
      rintro (_ | n') ts us a b h turns turns'
      · exact absurd turns' (Nat.not_lt_zero _)
      · refine (turn h).bind fun _ _ turned => ?_
        cases turned with
        | on kept left right => exact ih kept (by omega) (by omega)
        | done answers => exact pure answers
  exact ⟨fun {ctx ctx' _ _} abreast => (iterated ctx.turns h abreast.turns abreast.turns').ends abreast⟩

/-!
## Reading tokens
-/

theorem skip {t u : Token} {f : Option Token → Compiler β} {g : Option Token → Compiler β'}
    (h : Tandem ts us (f (some t)) (g (some u)) Q') :
    Tandem (t :: ts) (u :: us) (advance? >>= f) (advance? >>= g) Q' := by
  refine ⟨fun {ctx ctx' s s'} abreast => ?_⟩
  obtain ⟨contexts, scopes, left, right, turns, turns'⟩ := abreast
  have ends := h.ends (s := { s with rest := ts }) (t := { s' with rest := us })
    ⟨contexts, scopes, rfl, rfl, Nat.lt_of_succ_lt turns, Nat.lt_of_succ_lt turns'⟩
  have onward {s r : State} {t : Token} {ts : List Token} (front : s.rest = t :: ts)
      (h : { s with rest := ts }.Onward r) : s.Onward r := by
    refine ⟨h.scopes, Nat.le_trans h.rest ?_⟩
    rw [front]
    exact Nat.le_succ _
  change EndTandem Q' s s' (f s.rest.head? ctx { s with rest := s.rest.tail })
    (g s'.rest.head? ctx' { s' with rest := s'.rest.tail })
  have tail : s.rest.tail = ts := congrArg List.tail left
  have tail' : s'.rest.tail = us := congrArg List.tail right
  have head : s.rest.head? = some t := congrArg List.head? left
  have head' : s'.rest.head? = some u := congrArg List.head? right
  rw [head, head', tail, tail']
  generalize f (some t) ctx _ = r at ends
  generalize g (some u) ctx' _ = r' at ends
  cases ends with
  | none => exact .none ..
  | some front front' answers => exact .some (onward left front) (onward right front') answers

theorem peek? : Tandem ts us peek? peek? (Here ts us fun a b => a = ts.head? ∧ b = us.head?) :=
  look (fun _ _ => rfl) (fun _ _ => rfl) fun _ _ _ _ abreast => by
    rw [abreast.left, abreast.right]
    exact ⟨rfl, rfl⟩

theorem atOp (op : Operator) : Tandem ts us (atOp op) (atOp op)
    (Here ts us fun a b => a = ts.head?.any (·.isOp op) ∧ b = us.head?.any (·.isOp op)) :=
  look (fun _ _ => rfl) (fun _ _ => rfl) fun _ _ _ _ abreast => by
    rw [abreast.left, abreast.right]
    exact ⟨rfl, rfl⟩

theorem peeking {f : Option Token → Compiler β} {g : Option Token → Compiler β'} (h : Enclosed K depth ts us)
    (quiet : ∀ {t : Token}, t.Ends → f (some t) = f none) (quiet' : ∀ {t : Token}, t.Ends → g (some t) = g none)
    (stop : Tandem ts us (f none) (g none) Q')
    (go : ∀ {t u ts' us' behind}, ts = t :: ts' → us = u :: us' → t.Same u → t.openBehind? depth = some behind →
      Enclosed K behind ts' us' → Tandem ts us (f (some t)) (g (some u)) Q') :
    Tandem ts us (Compiler.peek? >>= f) (Compiler.peek? >>= g) Q' := by
  refine peek?.see ?_
  rintro _ _ ⟨rfl, rfl⟩
  rcases h.front with ⟨t, u, ts', us', behind, rfl, rfl, same, opens, more⟩ | ⟨-, ends, ends'⟩
  · exact go rfl rfl same opens more
  · have left : f ts.head? = f none := by
      cases front : ts.head? with
      | none => rfl
      | some t => exact quiet (ends t front)
    have right : g us.head? = g none := by
      cases front : us.head? with
      | none => rfl
      | some t => exact quiet' (ends' t front)
    rw [left, right]
    exact stop

variable {p : Token → Bool}

theorem eatIf (h : Enclosed K depth ts us) (same : ∀ {t u : Token}, t.Same u → p t = p u)
    (quiet : depth = 0 → ∀ {t : Token}, t.Ends → p t = false) :
    Tandem ts us (eatIf p) (eatIf p) fun ts' us' a b =>
      (∃ t u behind, a = some t ∧ b = some u ∧ p t = true ∧ t.Same u ∧ t.openBehind? depth = some behind ∧
        ts = t :: ts' ∧ us = u :: us' ∧ Enclosed K behind ts' us') ∨
      a = none ∧ b = none ∧ ts' = ts ∧ us' = us := by
  refine get.see ?_
  rintro s s' ⟨-, hs, hs'⟩
  rw [hs, hs']
  rcases h.front with ⟨t, u, ts', us', behind, rfl, rfl, alike, opens, more⟩ | ⟨flat, ends, ends'⟩
  · change Tandem _ _ (if p t = true then _ else _) (if p u = true then _ else _) _
    rw [← same alike]
    refine .ite (fun holds => ?_) fun _ => pure (.inr ⟨rfl, rfl, rfl, rfl⟩)
    exact skip (f := Pure.pure) (g := Pure.pure)
      (pure (.inl ⟨t, u, behind, rfl, rfl, holds, alike, opens, rfl, rfl, more⟩))
  · have none {ts : List Token} (ends : ∀ t ∈ ts.head?, t.Ends) : ts.head?.any p = false := by
      cases front : ts.head? with
      | none => rfl
      | some t => exact quiet flat (ends t front)
    rw [none ends, none ends']
    exact pure (.inr ⟨rfl, rfl, rfl, rfl⟩)

theorem isOp_of_ends {t : Token} {op : Operator} (ends : t.Ends) (goes : op.endsExpression = false) :
    t.isOp op = false := by
  obtain ⟨other, kind, ends⟩ := ends
  refine decide_eq_false fun same => ?_
  obtain rfl : other = op := TokenKind.operator.inj (kind.symm.trans same)
  exact Bool.false_ne_true (goes.symm.trans ends)

theorem any_isOp_of_ends {op : Operator} (ends : ∀ t ∈ ts.head?, t.Ends) (goes : op.endsExpression = false) :
    ts.head?.any (·.isOp op) = false := by
  cases front : ts.head? with
  | none => rfl
  | some t => exact isOp_of_ends (ends t front) goes

theorem openBehind?_of_isOp {t : Token} {op : Operator} (h : t.isOp op = true) :
    t.openBehind? depth = op.openBehind? depth := by
  have kind : t.kind = .operator op := of_decide_eq_true h
  unfold Token.openBehind?
  rw [kind]

theorem eatOp (h : Enclosed K depth ts us) (op : Operator) (known : op.openBehind? depth = some behind)
    (inner : depth = 0 → op.endsExpression = false) :
    Tandem ts us (Compiler.eatOp op) (Compiler.eatOp op) fun ts' us' a b =>
      (∃ t u, a = some t ∧ b = some u ∧ t.Same u ∧ ts = t :: ts' ∧ us = u :: us' ∧ Enclosed K behind ts' us') ∨
      a = none ∧ b = none ∧ Enclosed K depth ts' us' := by
  refine (eatIf h (fun same => same.isOp op) fun flat _ ends => isOp_of_ends ends (inner flat)).imp ?_
  rintro ts' us' a b - - (⟨t, u, after, rfl, rfl, holds, same, opens, front, front', more⟩ | ⟨rfl, rfl, rfl, rfl⟩)
  · rw [openBehind?_of_isOp holds, known] at opens
    cases opens
    exact .inl ⟨t, u, rfl, rfl, same, front, front', more⟩
  · exact .inr ⟨rfl, rfl, h⟩

theorem missing (cause : CompileError.Cause) : Tandem ts us (Compiler.missing cause) (Compiler.missing cause) Q :=
  fails (fun _ _ _ => rfl) fun _ _ _ => rfl

theorem expectOp (h : Enclosed K depth ts us) (op : Operator) (known : op.openBehind? depth = some behind)
    (inner : depth = 0 → op.endsExpression = false) {cause : CompileError.Cause} :
    Tandem ts us (Compiler.expectOp op cause) (Compiler.expectOp op cause)
      (Inside (Enclosed K behind) Token.Same) := by
  refine (eatOp h op known inner).bind ?_
  rintro ts' us' a b - - (⟨t, u, rfl, rfl, same, -, -, more⟩ | ⟨rfl, rfl, -⟩)
  · exact pure ⟨more, same⟩
  · exact missing _

theorem expectIdent (h : Enclosed K depth ts us) :
    Tandem ts us expectIdent expectIdent (Inside (Enclosed K depth) Token.Same) := by
  have quiet {t : Token} (ends : t.Ends) : decide (t.kind = .identifier) = false := by
    obtain ⟨op, kind, -⟩ := ends
    rw [kind]
    rfl
  refine (eatIf h (fun same => by rw [same.kind]) fun _ _ => quiet).bind ?_
  rintro ts' us' a b - - (⟨t, u, behind, rfl, rfl, holds, same, opens, -, -, more⟩ | ⟨rfl, rfl, -, -⟩)
  · have kind : t.kind = .identifier := of_decide_eq_true holds
    unfold Token.openBehind? at opens
    rw [kind] at opens
    cases opens
    exact pure ⟨more, same⟩
  · exact missing _

theorem commaList {item : Compiler α} {item' : Compiler α'} (h : Enclosed K (depth + 1) ts us)
    (hi : ∀ {ts us}, Enclosed K (depth + 1) ts us → Tandem ts us item item' (Inside (Enclosed K (depth + 1)) A)) :
    Tandem ts us (commaList item) (commaList item') (Inside (Enclosed K (depth + 1)) (List.Forall₂ A)) := by
  refine loop (Inside (Enclosed K (depth + 1)) (List.Forall₂ A)) ⟨h, .nil⟩ fun {ts us as bs} ⟨h, alike⟩ => ?_
  refine (hi h).bind fun le le' ⟨h, same⟩ => (eatOp h .comma rfl nofun).bind fun _ _ read => ?_
  rcases read with ⟨t, u, rfl, rfl, -, rfl, rfl, more⟩ | ⟨rfl, rfl, h⟩
  · exact pure (.on ⟨more, .cons same alike⟩ le le')
  · exact pure (.done ⟨h, List.rel_reverse (.cons same alike)⟩)

end Tandem
end Tickwise
