import Mathlib.Data.List.Forall2
import Tickwise.Proofs.Compile.Errors
import Tickwise.Proofs.Storage.Alike
set_option autoImplicit false

/-!
# Routines side by side

A routine runs twice, in front of the same tokens up to the end of a block. What is behind the block may differ,
and so may the ranges of the tokens and the numbers that are next. Both runs succeed, in front of the same
tokens again, or both fail for the same reason.
-/
namespace Tickwise

open Compile Compiler

/-- The same token, at related ranges. -/
inductive Token.Alike (R : Span → Span → Prop) : Token → Token → Prop
  | mk (kind : TokenKind) (text : String) {span span' : Span} (h : R span span') :
    Alike R ⟨kind, text, span⟩ ⟨kind, text, span'⟩

/-- The same cause, at related ranges. -/
inductive CompileError.Alike (R : Span → Span → Prop) : CompileError → CompileError → Prop
  | mk (cause : CompileError.Cause) {span span' : Span} (h : R span span') : Alike R ⟨cause, span⟩ ⟨cause, span'⟩

/-- Variables of the same name and type; they may have different numbers. -/
structure Slot.Namesake (v w : Variable) : Prop where
  name : v.name = w.name
  ty : v.ty = w.ty

structure ScopeFrame.Alike (f g : ScopeFrame) : Prop where
  isBlock : f.isBlock = g.isBlock
  vars : f.vars.Forall₂ Slot.Namesake g.vars

/-- Which ranges are related, what is behind the block on either side, where the second unit ends, and what is known
of the functions that can be called. -/
structure Compile.Sides where
  R : Span → Span → Prop
  left : List Token
  right : List Token
  stop : Span
  known : List Signature → NativeRegistry → Prop

/-- The same is in sight, and the same error is recorded if one is. -/
structure ScopeStack.Alike (K : Sides) (s t : ScopeStack) : Prop where
  frames : s.frames.Forall₂ ScopeFrame.Alike t.frames
  functions : s.functions = t.functions
  natives : s.natives = t.natives
  known : K.known s.functions s.natives
  error : Option.Rel (CompileError.Alike K.R) s.error t.error

def Operator.isBrace : Operator → Bool
  | .leftBrace | .rightBrace => true
  | _ => false

def Token.depthBehind (t : Token) (depth : Nat) : Nat :=
  if t.isOp .leftBrace then depth + 1 else if t.isOp .rightBrace then depth - 1 else depth

/-- The same tokens up to the brace that closes the block, inside `depth` open braces of it. -/
inductive Compile.Aligned (K : Sides) : (depth : Nat) → List Token → List Token → Prop
  | done : Aligned K 0 K.left K.right
  | step {depth : Nat} {t u : Token} {ts us : List Token} (same : t.Alike K.R u)
    (more : Aligned K (t.depthBehind (depth + 1)) ts us) : Aligned K (depth + 1) (t :: ts) (u :: us)

/-- The next tokens are alike, or there is none on either side. -/
inductive Compile.Heads (R : Span → Span → Prop) : List Token → List Token → Prop
  | none : Heads R [] []
  | some {t u : Token} (ts us : List Token) (same : t.Alike R u) : Heads R (t :: ts) (u :: us)

/-- A relation between what is left on either side that still holds behind a token, unless that is an operator which
it does not admit. -/
class Compile.Region (K : Sides) (G : List Token → List Token → Prop) where
  admits : Operator → Bool
  heads : ∀ {ts us}, G ts us → Heads K.R ts us
  tail : ∀ {t u ts us}, G (t :: ts) (u :: us) → (∀ op, t.kind = .operator op → admits op = true) → G ts us
  comma : admits .comma = true
  brackets : admits .leftBracket = true ∧ admits .rightBracket = true

/-- How two runs end: both with an answer that satisfies `Q`, or both without. -/
def Compile.EndBeside {α β : Type} (K : Sides) (Q : List Token → List Token → α → β → Prop) :
    Option α × State → Option β × State → Prop
  | (some a, s), (some b, t) => s.scopes.Alike K t.scopes ∧ Q s.rest t.rest a b
  | (none, s), (none, t) => s.scopes.Alike K t.scopes
  | _, _ => False

/-- In front of these tokens the two routines end alike. -/
structure Beside {α β : Type} (K : Sides) (ts us : List Token) (c : Compiler α) (d : Compiler β)
    (Q : List Token → List Token → α → β → Prop) : Prop where
  ends : ∀ ctx {s t}, K.R ctx.endSpan K.stop → s.rest = ts → t.rest = us → s.scopes.Alike K t.scopes →
    EndBeside K Q (c ctx s) (d { ctx with endSpan := K.stop } t)

/-- What is left is related, and the answers are alike. -/
def Compile.Inside {α β : Type} (G : List Token → List Token → Prop) (A : α → β → Prop) (ts us : List Token)
    (a : α) (b : β) : Prop :=
  G ts us ∧ A a b

def Compile.Here {α β : Type} (ts us : List Token) (A : α → β → Prop) (ts' us' : List Token) (a : α) (b : β) : Prop :=
  ts' = ts ∧ us' = us ∧ A a b

namespace ScopeStack.Alike

variable {K : Sides} {s t : ScopeStack}

theorem recordError (h : s.Alike K t) (cause : CompileError.Cause) {span span' : Span} (hspan : K.R span span') :
    (s.recordError cause span).Alike K (t.recordError cause span') := by
  obtain ⟨frames, functions, natives, known, error⟩ := h
  unfold ScopeStack.recordError
  generalize hs : s.error = e at error
  generalize ht : t.error = e' at error
  cases error with
  | none => exact ⟨frames, functions, natives, known, .some (.mk cause hspan)⟩
  | some same => exact ⟨frames, functions, natives, known, by rw [hs, ht]; exact .some same⟩

theorem push (h : s.Alike K t) (isBlock : Bool) : (s.push isBlock).Alike K (t.push isBlock) :=
  { h with frames := .cons ⟨rfl, .nil⟩ h.frames }

theorem pop (h : s.Alike K t) : s.pop.Alike K t.pop := by
  refine { h with frames := ?_ }
  have frames := h.frames
  unfold ScopeStack.pop
  generalize s.frames = fs at frames
  generalize t.frames = gs at frames
  cases frames with
  | nil => exact .nil
  | cons _ rest => exact rest

theorem find? (h : s.Alike K t) (name : String) : Option.Rel Slot.Namesake (s.find? name) (t.find? name) := by
  have inFrame {vs ws : List Variable} (same : vs.Forall₂ Slot.Namesake ws) : Option.Rel Slot.Namesake
      (vs.find? fun v => v.name = some name) (ws.find? fun v => v.name = some name) := by
    induction same with
    | nil => exact .none
    | cons first _ ih =>
      rw [List.find?_cons, List.find?_cons, first.name]
      split
      · exact .some first
      · exact ih
  have frames := h.frames
  unfold ScopeStack.find?
  generalize s.frames = fs at frames
  generalize t.frames = gs at frames
  induction frames with
  | nil => exact .none
  | cons first _ ih =>
    rw [List.findSome?_cons, List.findSome?_cons]
    have found := inFrame first.vars
    generalize List.find? _ _ = v at found
    generalize List.find? _ _ = w at found
    cases found with
    | none => exact ih
    | some same => exact .some same

theorem isDuplicate (h : s.Alike K t) (name : String) : s.isDuplicate name = t.isDuplicate name := by
  have inFrame {vs ws : List Variable} (same : vs.Forall₂ Slot.Namesake ws) :
      (vs.any fun v => v.name = some name) = ws.any fun v => v.name = some name := by
    induction same with
    | nil => rfl
    | cons first _ ih => rw [List.any_cons, List.any_cons, first.name, ih]
  have frames := h.frames
  unfold ScopeStack.isDuplicate
  generalize s.frames = fs at frames
  generalize t.frames = gs at frames
  induction frames with
  | nil => rfl
  | cons first _ ih =>
    rw [innermostGroup, innermostGroup, first.isBlock]
    split
    · rw [List.any_cons, List.any_cons, inFrame first.vars]
    · rw [List.any_cons, List.any_cons, inFrame first.vars, ih]

theorem declare (h : s.Alike K t) {span span' : Span} (hspan : K.R span span') {v w : Variable} (same : v.Namesake w) :
    (s.declare span v).1 = (t.declare span' w).1 ∧ (s.declare span v).2.Alike K (t.declare span' w).2 := by
  unfold ScopeStack.declare
  rw [h.isDuplicate, same.name]
  split
  · exact ⟨rfl, h.recordError _ hspan⟩
  · have frames := h.frames
    generalize hs : s.frames = fs at frames
    generalize ht : t.frames = gs at frames
    cases frames with
    | nil => exact ⟨rfl, h⟩
    | cons first rest => exact ⟨rfl, { h with frames := .cons ⟨first.isBlock, .cons same first.vars⟩ rest }⟩

theorem resolveCall (h : s.Alike K t) (name : String) {span span' : Span} (hspan : K.R span span') (args : List Ty) :
    (s.resolveCall name span args).1 = (t.resolveCall name span' args).1 ∧
      (s.resolveCall name span args).2.Alike K (t.resolveCall name span' args).2 := by
  have candidates : s.candidates name = t.candidates name := by
    rw [ScopeStack.candidates, ScopeStack.candidates, h.functions, h.natives]
  unfold ScopeStack.resolveCall
  rw [candidates]
  split
  · exact ⟨rfl, h⟩
  · exact ⟨rfl, h.recordError _ hspan⟩
  · exact ⟨rfl, h.recordError _ hspan⟩
  · exact ⟨rfl, h.recordError _ hspan⟩

end ScopeStack.Alike

namespace Beside

variable {α α' β β' σ σ' : Type} {K : Sides} {ts us : List Token} {c : Compiler α} {d : Compiler α'}
  {Q : List Token → List Token → α → α' → Prop} {Q' : List Token → List Token → β → β' → Prop} {A : α → α' → Prop}
  {G : List Token → List Token → Prop} {span span' : Span}

theorem pure {a : α} {b : α'} (h : Q ts us a b) : Beside K ts us (pure a) (pure b) Q :=
  ⟨fun _ _ _ _ hs ht same => ⟨same, hs ▸ ht ▸ h⟩⟩

theorem fail (cause : CompileError.Cause) (hspan : K.R span span') :
    Beside K ts us (Compiler.fail cause span) (Compiler.fail cause span') Q :=
  ⟨fun _ _ _ _ _ _ same => same.recordError cause hspan⟩

theorem bind {f : α → Compiler β} {g : α' → Compiler β'} (first : Beside K ts us c d Q)
    (second : ∀ ts us a b, Q ts us a b → Beside K ts us (f a) (g b) Q') : Beside K ts us (c >>= f) (d >>= g) Q' := by
  refine ⟨fun ctx s t stop hs ht same => ?_⟩
  have ends := first.ends ctx stop hs ht same
  rw [bind_apply, bind_apply]
  generalize c ctx s = r at ends
  generalize d { ctx with endSpan := K.stop } t = r' at ends
  obtain ⟨_ | a, s'⟩ := r <;> obtain ⟨_ | b, t'⟩ := r'
  · exact ends
  · exact ends.elim
  · exact ends.elim
  · exact (second _ _ a b ends.2).ends ctx stop rfl rfl ends.1

theorem fails {f : α → Compiler β} {g : α' → Compiler β'} (cause : CompileError.Cause) (hspan : K.R span span') :
    Beside K ts us (Compiler.fail cause span >>= f) (Compiler.fail cause span' >>= g) Q' :=
  (fail (Q := fun _ _ _ _ => False) cause hspan).bind fun _ _ _ _ none => none.elim

theorem next {f : α → Compiler β} {g : α' → Compiler β'} (first : Beside K ts us c d (Inside G A))
    (second : ∀ {ts us a b}, G ts us → A a b → Beside K ts us (f a) (g b) Q') :
    Beside K ts us (c >>= f) (d >>= g) Q' :=
  first.bind fun _ _ _ _ h => second h.1 h.2

theorem see {f : α → Compiler β} {g : α' → Compiler β'} (first : Beside K ts us c d (Here ts us A))
    (second : ∀ a b, A a b → Beside K ts us (f a) (g b) Q') : Beside K ts us (c >>= f) (d >>= g) Q' := by
  refine first.bind ?_
  rintro _ _ a b ⟨rfl, rfl, h⟩
  exact second a b h

theorem imp {Q₁ : List Token → List Token → α → α' → Prop} (h : Beside K ts us c d Q)
    (weaker : ∀ ts us a b, Q ts us a b → Q₁ ts us a b) : Beside K ts us c d Q₁ := by
  refine ⟨fun ctx s t stop hs ht same => ?_⟩
  have ends := h.ends ctx stop hs ht same
  generalize c ctx s = r at ends
  generalize d { ctx with endSpan := K.stop } t = r' at ends
  obtain ⟨_ | a, s'⟩ := r <;> obtain ⟨_ | b, t'⟩ := r'
  · exact ends
  · exact ends.elim
  · exact ends.elim
  · exact ⟨ends.1, weaker _ _ _ _ ends.2⟩

theorem map {f : α → β} {g : α' → β'} (h : Beside K ts us c d fun ts us a b => Q' ts us (f a) (g b)) :
    Beside K ts us (f <$> c) (g <$> d) Q' :=
  h.bind fun _ _ _ _ => pure

theorem mapAny {f : α → β} {g : α' → β'} (h : Beside K ts us c d (Inside G A)) :
    Beside K ts us (f <$> c) (g <$> d) (Inside G fun _ _ => True) :=
  map (h.imp fun _ _ _ _ kept => ⟨kept.1, trivial⟩)

theorem ifs {p q : Prop} [Decidable p] [Decidable q] {c' : Compiler α} {d' : Compiler α'} (same : p ↔ q)
    (yes : p → Beside K ts us c d Q) (no : ¬ p → Beside K ts us c' d' Q) :
    Beside K ts us (if p then c else c') (if q then d else d') Q := by
  by_cases h : p
  · rw [if_pos h, if_pos (same.1 h)]
    exact yes h
  · rw [if_neg h, if_neg (mt same.2 h)]
    exact no h

theorem ite {p : Prop} [Decidable p] {c' : Compiler α} {d' : Compiler α'} (yes : p → Beside K ts us c d Q)
    (no : ¬ p → Beside K ts us c' d' Q) : Beside K ts us (if p then c else c') (if p then d else d') Q :=
  ifs Iff.rfl yes no

theorem ask {f : Context → Compiler β} {g : Context → Compiler β'}
    (h : ∀ ctx, K.R ctx.endSpan K.stop → Beside K ts us (f ctx) (g { ctx with endSpan := K.stop }) Q') :
    Beside K ts us (read >>= f) (read >>= g) Q' :=
  ⟨fun ctx _ _ stop hs ht same => (h ctx stop).ends ctx stop hs ht same⟩

theorem withReader {f : Context → Context} (h : Beside K ts us c d Q) (keeps : ∀ ctx, (f ctx).endSpan = ctx.endSpan)
    (same : ∀ ctx stop, f { ctx with endSpan := stop } = { f ctx with endSpan := stop }) :
    Beside K ts us (withReader f c) (withReader f d) Q := by
  refine ⟨fun ctx s t stop hs ht alike => ?_⟩
  change EndBeside K Q (c (f ctx) s) (d (f { ctx with endSpan := K.stop }) t)
  rw [same ctx K.stop]
  exact h.ends (f ctx) (by rwa [keeps]) hs ht alike

theorem look {g : Context → State → α} {g' : Context → State → α'} (hc : ∀ ctx s, c ctx s = (some (g ctx s), s))
    (hd : ∀ ctx s, d ctx s = (some (g' ctx s), s))
    (ha : ∀ ctx s t, K.R ctx.endSpan K.stop → s.rest = ts → t.rest = us → s.scopes.Alike K t.scopes →
      A (g ctx s) (g' { ctx with endSpan := K.stop } t)) : Beside K ts us c d (Here ts us A) := by
  refine ⟨fun ctx s t stop hs ht same => ?_⟩
  rw [hc, hd]
  exact ⟨same, hs, ht, ha ctx s t stop hs ht same⟩

theorem get : Beside K ts us get get
    (Here ts us fun (s t : State) => s.scopes.Alike K t.scopes ∧ s.rest = ts ∧ t.rest = us) :=
  ⟨fun _ _ _ _ hs ht same => ⟨same, hs, ht, same, hs, ht⟩⟩

theorem onScopes {f : ScopeStack → α × ScopeStack} {g : ScopeStack → α' × ScopeStack}
    (h : ∀ s t, s.Alike K t → (f s).2.Alike K (g t).2 ∧ A (f s).1 (g t).1) :
    Beside K ts us (Compiler.onScopes f) (Compiler.onScopes g) (Here ts us A) :=
  ⟨fun _ _ _ _ hs ht same => ⟨(h _ _ same).1, hs, ht, (h _ _ same).2⟩⟩

theorem onScopes? {f : ScopeStack → Option α × ScopeStack} {g : ScopeStack → Option α' × ScopeStack}
    (h : ∀ s t, s.Alike K t → (f s).2.Alike K (g t).2 ∧ Option.Rel A (f s).1 (g t).1) :
    Beside K ts us (Compiler.onScopes? f) (Compiler.onScopes? g) (Here ts us A) := by
  refine ⟨fun ctx s t _ hs ht same => ?_⟩
  obtain ⟨scopes, answers⟩ := h _ _ same
  unfold Compiler.onScopes?
  generalize (f s.scopes).1 = a at answers
  generalize (g t.scopes).1 = b at answers
  cases answers with
  | none => exact scopes
  | some alike => exact ⟨scopes, hs, ht, alike⟩

theorem inFrame (isBlock : Bool) (h : Beside K ts us c d Q) :
    Beside K ts us (Compiler.inFrame isBlock c) (Compiler.inFrame isBlock d) Q := by
  refine ⟨fun ctx s t stop hs ht same => ?_⟩
  let s₁ : State := { s with scopes := s.scopes.push isBlock }
  let t₁ : State := { t with scopes := t.scopes.push isBlock }
  have ends := h.ends ctx (s := s₁) (t := t₁) stop hs ht (same.push isBlock)
  unfold Compiler.inFrame
  let closed {γ : Type} (r : Option γ × State) : Option γ × State := (r.1, { r.2 with scopes := r.2.scopes.pop })
  change EndBeside K Q (closed (c ctx s₁)) (closed (d { ctx with endSpan := K.stop } t₁))
  generalize c ctx s₁ = r at ends
  generalize d { ctx with endSpan := K.stop } t₁ = r' at ends
  obtain ⟨_ | a, s'⟩ := r <;> obtain ⟨_ | b, t'⟩ := r'
  · exact ScopeStack.Alike.pop ends
  · exact ends.elim
  · exact ends.elim
  · exact ⟨ends.1.pop, ends.2⟩

def Turn (K : Sides) (step : σ → Compiler (σ ⊕ α)) (step' : σ' → Compiler (σ' ⊕ α'))
    (I : List Token → List Token → σ → σ' → Prop) (Q : List Token → List Token → α → α' → Prop) : Prop :=
  ∀ ts us st st', I ts us st st' → Beside K ts us (step st) (step' st') fun ts us r r' => match r, r' with
    | .inl st, .inl st' => I ts us st st'
    | .inr a, .inr b => Q ts us a b
    | _, _ => False

theorem iterate {step : σ → Compiler (σ ⊕ α)} {step' : σ' → Compiler (σ' ⊕ α')}
    {I : List Token → List Token → σ → σ' → Prop} (hs : Turn K step step' I Q) (turns : Nat) {st : σ} {st' : σ'}
    (h : I ts us st st') : Beside K ts us (Compiler.iterate step turns st) (Compiler.iterate step' turns st') Q := by
  induction turns generalizing ts us st st' with
  | zero => exact ask fun _ stop => fail _ stop
  | succ turns ih =>
    refine (hs ts us st st' h).bind fun ts us r r' kept => ?_
    obtain st | a := r <;> obtain st' | b := r'
    · exact ih kept
    · exact kept.elim
    · exact kept.elim
    · exact pure kept

theorem loop {start : σ} {start' : σ'} {step : σ → Compiler (σ ⊕ α)} {step' : σ' → Compiler (σ' ⊕ α')}
    (I : List Token → List Token → σ → σ' → Prop) (h : I ts us start start') (hs : Turn K step step' I Q) :
    Beside K ts us (Compiler.loop start step) (Compiler.loop start' step') Q :=
  ask fun ctx _ => iterate hs ctx.turns h

end Beside

theorem Token.Alike.text {R : Span → Span → Prop} {t u : Token} (h : t.Alike R u) : t.text = u.text := by
  cases h
  rfl

theorem Token.Alike.kind {R : Span → Span → Prop} {t u : Token} (h : t.Alike R u) : t.kind = u.kind := by
  cases h
  rfl

theorem Token.Alike.isOp {R : Span → Span → Prop} {t u : Token} (h : t.Alike R u) (op : Operator) :
    t.isOp op = u.isOp op := by
  cases h
  rfl

theorem Token.Alike.isWord {R : Span → Span → Prop} {t u : Token} (h : t.Alike R u) (word : Keyword) :
    t.isWord word = u.isWord word := by
  cases h
  rfl

theorem Token.Alike.isError {R : Span → Span → Prop} {t u : Token} (h : t.Alike R u) : t.isError = u.isError := by
  cases h
  rfl

theorem CompileError.Alike.eq {e e' : CompileError} (h : e.Alike Eq e') : e = e' := by
  obtain ⟨cause, h⟩ := h
  rw [h]

theorem Compile.Heads.any {R : Span → Span → Prop} {ts us : List Token} {p : Token → Bool} (h : Heads R ts us)
    (same : ∀ {t u : Token}, t.Alike R u → p t = p u) : ts.head?.any p = us.head?.any p := by
  cases h with
  | none => rfl
  | some _ _ alike => exact same alike

theorem Compile.Heads.nil_iff {R : Span → Span → Prop} {ts us : List Token} (h : Heads R ts us) :
    ts = [] ↔ us = [] := by
  cases h with
  | none => exact Iff.rfl
  | some => exact ⟨nofun, nofun⟩

/-- A condition on tokens that looks at no range, and that only operators satisfy which are admitted. -/
structure Token.Test (admits : Operator → Bool) (p : Token → Bool) : Prop where
  same : ∀ {R : Span → Span → Prop} {t u : Token}, t.Alike R u → p t = p u
  admitted : ∀ {t : Token}, p t = true → ∀ op, t.kind = .operator op → admits op = true

theorem Compile.Context.class?_endSpan (ctx : Context) (stop : Span) :
    Context.class? { ctx with endSpan := stop } = ctx.class? := rfl

namespace Token.Test

variable {admits : Operator → Bool}

theorem op {op : Operator} (hop : admits op = true) : Test admits (·.isOp op) where
  same h := h.isOp op
  admitted {t} h other kind := by
    have known : t.kind = .operator op := of_decide_eq_true h
    obtain rfl : op = other := TokenKind.operator.inj (known.symm.trans kind)
    exact hop

theorem word (word : Keyword) : Test admits (·.isWord word) where
  same h := h.isWord word
  admitted {t} h other kind := by
    have known : t.kind = .keyword word := of_decide_eq_true h
    cases known.symm.trans kind

theorem identifier : Test admits (fun token => token.kind = .identifier) where
  same h := by rw [h.kind]
  admitted {t} h other kind := by
    have known : t.kind = .identifier := of_decide_eq_true h
    cases known.symm.trans kind

end Token.Test

namespace Compile.Aligned

variable {K : Sides} {depth : Nat} {ts us : List Token}

theorem heads (h : Aligned K (depth + 1) ts us) : ∃ t u ts' us', ts = t :: ts' ∧ us = u :: us' ∧ t.Alike K.R u ∧
    Aligned K (t.depthBehind (depth + 1)) ts' us' := by
  cases h with
  | step same more => exact ⟨_, _, _, _, rfl, rfl, same, more⟩

theorem tail {t u : Token} (h : Aligned K (depth + 1) (t :: ts) (u :: us))
    (plain : ∀ op, t.kind = .operator op → (!op.isBrace) = true) : Aligned K (depth + 1) ts us := by
  cases h with
  | step same more =>
    have other {op : Operator} (brace : op.isBrace = true) : t.isOp op = false := by
      refine decide_eq_false fun kind => ?_
      have := plain op kind
      rw [brace] at this
      cases this
    rwa [Token.depthBehind, other rfl, other rfl, if_neg Bool.false_ne_true, if_neg Bool.false_ne_true] at more

instance region : Region K (Aligned K (depth + 1)) where
  admits op := !op.isBrace
  heads h := by
    obtain ⟨_, _, ts, us, rfl, rfl, same, -⟩ := h.heads
    exact .some ts us same
  tail := tail
  comma := rfl
  brackets := ⟨rfl, rfl⟩

theorem behind {t u : Token} {op : Operator} (h : Aligned K (depth + 1) (t :: ts) (u :: us)) (hop : op.isBrace = false)
    (ht : t.isOp op = true) : Aligned K (depth + 1) ts us :=
  h.tail ((Token.Test.op (by rw [hop]; rfl)).admitted ht)

theorem startsDeclaration (h : Aligned K (depth + 1) ts us) (ctx : Context) :
    ctx.startsDeclaration ts = { ctx with endSpan := K.stop }.startsDeclaration us := by
  obtain ⟨t, u, ts, us, rfl, rfl, same, -⟩ := h.heads
  obtain ⟨kind, text, _⟩ := same
  cases kind with
  | identifier =>
    obtain ⟨t, u, ts, us, rfl, rfl, same, -⟩ := (h.tail (Token.Test.identifier.admitted rfl)).heads
    have bracket (hb : t.isOp .leftBracket = true) :
        ts.head?.any (·.isOp .rightBracket) = us.head?.any (·.isOp .rightBracket) := by
      obtain ⟨_, _, _, _, rfl, rfl, same, -⟩ := ((h.tail (Token.Test.identifier.admitted rfl)).behind rfl hb).heads
      exact same.isOp _
    change (ctx.isClass text && (decide (t.kind = .identifier) || (t.isOp .leftBracket && ts.head?.any _))) =
      (ctx.isClass text && (decide (u.kind = .identifier) || (u.isOp .leftBracket && us.head?.any _)))
    rw [← same.isOp, ← same.kind]
    cases hb : t.isOp .leftBracket with
    | false => rfl
    | true => rw [bracket hb]
  | _ => rfl

end Compile.Aligned

namespace Beside

variable {α α' β β' : Type} {K : Sides} {G : List Token → List Token → Prop} {ts us : List Token} {depth : Nat}
  {Q : List Token → List Token → α → α' → Prop} {Q' : List Token → List Token → β → β' → Prop} {A : α → α' → Prop}
  {p : Token → Bool}

theorem here (h : Heads K.R ts us) : Beside K ts us here here (Here ts us K.R) := by
  refine look (fun _ _ => rfl) (fun _ _ => rfl) fun ctx s t stop hs ht _ => ?_
  rw [hs, ht]
  cases h with
  | none => exact stop
  | some ts us same =>
    cases same with
    | mk _ _ hspan => exact hspan

theorem peek? : Beside K ts us peek? peek? (Here ts us fun a b => a = ts.head? ∧ b = us.head?) :=
  look (fun _ _ => rfl) (fun _ _ => rfl) fun _ _ _ _ hs ht _ => by rw [hs, ht]; exact ⟨rfl, rfl⟩

theorem peekSecond? : Beside K ts us peekSecond? peekSecond? (Here ts us fun a b => a = ts[1]? ∧ b = us[1]?) :=
  look (fun _ _ => rfl) (fun _ _ => rfl) fun _ _ _ _ hs ht _ => by rw [hs, ht]; exact ⟨rfl, rfl⟩

theorem atOp (h : Heads K.R ts us) (op : Operator) :
    Beside K ts us (atOp op) (atOp op) (Here ts us fun a b => a = ts.head?.any (·.isOp op) ∧ b = a) :=
  look (fun _ _ => rfl) (fun _ _ => rfl) fun _ _ _ _ hs ht _ => by
    rw [hs, ht]
    exact ⟨rfl, (h.any fun same => same.isOp op).symm⟩

theorem atDeclaration (h : Aligned K (depth + 1) ts us) :
    Beside K ts us atDeclaration atDeclaration (Here ts us fun a b => b = a) :=
  look (fun _ _ => rfl) (fun _ _ => rfl) fun ctx _ _ _ hs ht _ => by rw [hs, ht, h.startsDeclaration]

theorem skip {t u : Token} {f : Option Token → Compiler β} {g : Option Token → Compiler β'}
    (h : Beside K ts us (f (some t)) (g (some u)) Q') :
    Beside K (t :: ts) (u :: us) (advance? >>= f) (advance? >>= g) Q' := by
  refine ⟨fun ctx s s' stop hs ht same => ?_⟩
  have ends := h.ends ctx (s := { s with rest := ts }) (t := { s' with rest := us }) stop rfl rfl same
  change EndBeside K Q' (f s.rest.head? ctx { s with rest := s.rest.tail })
    (g s'.rest.head? { ctx with endSpan := K.stop } { s' with rest := s'.rest.tail })
  rw [hs, ht]
  exact ends

theorem eatIf (same : ∀ {t u : Token}, t.Alike K.R u → p t = p u) (h : Heads K.R ts us) :
    Beside K ts us (eatIf p) (eatIf p) fun ts' us' a b =>
      (∃ t u, a = some t ∧ b = some u ∧ p t = true ∧ t.Alike K.R u ∧ ts = t :: ts' ∧ us = u :: us') ∨
        a = none ∧ b = none ∧ ts' = ts ∧ us' = us := by
  refine get.see ?_
  rintro s s' ⟨-, hs, hs'⟩
  rw [hs, hs']
  cases h with
  | none => exact pure (.inr ⟨rfl, rfl, rfl, rfl⟩)
  | @some t u ts us alike =>
    change Beside K _ _ (if p t = true then _ else _) (if p u = true then _ else _) _
    rw [← same alike]
    refine .ite (fun holds => ?_) fun _ => pure (.inr ⟨rfl, rfl, rfl, rfl⟩)
    exact skip (f := Pure.pure) (g := Pure.pure) (pure (.inl ⟨t, u, rfl, rfl, holds, alike, rfl, rfl⟩))

theorem missing (cause : CompileError.Cause) (h : Heads K.R ts us) :
    Beside K ts us (missing cause) (missing cause) Q := by
  refine get.see ?_
  rintro s s' ⟨-, hs, hs'⟩
  refine (here h).see fun _ _ hspan => ?_
  rw [hs, hs']
  cases h with
  | none => exact .fail _ hspan
  | some => exact .fail _ hspan

variable [Region K G]

theorem eat (h : G ts us) (hp : Token.Test (Region.admits K G) p) :
    Beside K ts us (Compiler.eatIf p) (Compiler.eatIf p) (Inside G (Option.Rel (Token.Alike K.R))) := by
  refine (eatIf hp.same (Region.heads h)).imp ?_
  rintro ts' us' a b (⟨t, u, rfl, rfl, holds, same, rfl, rfl⟩ | ⟨rfl, rfl, rfl, rfl⟩)
  · exact ⟨Region.tail (K := K) h (hp.admitted holds), .some same⟩
  · exact ⟨h, .none⟩

theorem eatOp (h : G ts us) (op : Operator) (hop : Region.admits K G op = true) :
    Beside K ts us (Compiler.eatOp op) (Compiler.eatOp op) (Inside G (Option.Rel (Token.Alike K.R))) :=
  eat h (.op hop)

theorem eatWord (h : G ts us) (word : Keyword) :
    Beside K ts us (Compiler.eatWord word) (Compiler.eatWord word) (Inside G (Option.Rel (Token.Alike K.R))) :=
  eat h (.word word)

theorem expect (h : G ts us) (hp : Token.Test (Region.admits K G) p) (cause : CompileError.Cause) :
    Beside K ts us (expect p cause) (expect p cause) (Inside G (Token.Alike K.R)) := by
  refine (eat h hp).next fun h same => ?_
  cases same with
  | none => exact missing cause (Region.heads h)
  | some same => exact pure ⟨h, same⟩

theorem expectOp (h : G ts us) (op : Operator) {cause : CompileError.Cause} (hop : Region.admits K G op = true) :
    Beside K ts us (Compiler.expectOp op cause) (Compiler.expectOp op cause) (Inside G (Token.Alike K.R)) :=
  expect h (.op hop) cause

theorem expectIdent (h : G ts us) : Beside K ts us expectIdent expectIdent (Inside G (Token.Alike K.R)) :=
  expect h .identifier _

theorem commaList {item : Compiler α} {item' : Compiler α'} (h : G ts us)
    (hi : ∀ {ts us}, G ts us → Beside K ts us item item' (Inside G A)) :
    Beside K ts us (commaList item) (commaList item') (Inside G (List.Forall₂ A)) := by
  refine loop (Inside G (List.Forall₂ A)) ⟨h, .nil⟩ fun ts us as bs ⟨h, alike⟩ => ?_
  refine (hi h).next fun h same => (eatOp h .comma Region.comma).next fun h comma => ?_
  cases comma with
  | none => exact pure ⟨h, List.rel_reverse (.cons same alike)⟩
  | some => exact pure ⟨h, .cons same alike⟩

theorem baseType (allowVoid : Bool) {t u : Token} (same : t.Alike K.R u) :
    Beside K ts us (baseType allowVoid t) (baseType allowVoid u)
      (Here ts us fun a b => b = a ∧ ∀ op, t.kind ≠ .operator op) := by
  obtain ⟨kind, text, hspan⟩ := same
  unfold Compiler.baseType
  dsimp only
  split
  · exact .ite (fun _ => pure ⟨rfl, rfl, rfl, nofun⟩) fun _ => .fail _ hspan
  · exact pure ⟨rfl, rfl, rfl, nofun⟩
  · exact pure ⟨rfl, rfl, rfl, nofun⟩
  · exact pure ⟨rfl, rfl, rfl, nofun⟩
  · exact pure ⟨rfl, rfl, rfl, nofun⟩
  · exact .ask fun _ _ => .ite (fun _ => pure ⟨rfl, rfl, rfl, nofun⟩) fun _ => .fail _ hspan
  · exact .fail _ hspan

theorem arrayOf (ty : Ty) {span span' : Span} (hspan : K.R span span') :
    Beside K ts us (arrayOf ty span) (arrayOf ty span') (Here ts us fun a b => b = a) :=
  .ite (fun _ => .fail _ hspan) fun _ => pure ⟨rfl, rfl, rfl⟩

theorem typeName (h : G ts us) (allowVoid : Bool) :
    Beside K ts us (typeName allowVoid) (typeName allowVoid) (Inside G fun a b => K.R a.1 b.1 ∧ b.2 = a.2) := by
  refine peek?.see ?_
  rintro _ _ ⟨rfl, rfl⟩
  cases Region.heads (K := K) h with
  | none => exact .ask fun _ stop => .fail _ stop
  | @some t u ts us same =>
    refine (baseType allowVoid same).see ?_
    rintro _ base ⟨rfl, plain⟩
    obtain ⟨kind, text, hspan⟩ := same
    have h' : G ts us := Region.tail (K := K) h fun op kind => (plain op kind).elim
    refine skip (next (G := G) (A := fun a b => b = a) (loop (Inside G fun a b => b = a) ⟨h', rfl⟩ ?_) ?_)
    · rintro ts us _ ty ⟨h, rfl⟩
      refine (atOp (Region.heads h) .leftBracket).see ?_
      rintro _ opens ⟨known, rfl⟩
      refine peekSecond?.see ?_
      rintro _ _ ⟨rfl, rfl⟩
      cases opens with
      | false => exact pure ⟨h, rfl⟩
      | true =>
        cases Region.heads (K := K) h with
        | none => cases known
        | @some l l' ts us left =>
          have h₁ : G ts us := Region.tail (K := K) h ((Token.Test.op Region.brackets.1).admitted known.symm)
          cases Region.heads (K := K) h₁ with
          | none => exact pure ⟨h, rfl⟩
          | @some r r' ts us right =>
            have same : r.isOp .rightBracket = true ↔ r'.isOp .rightBracket = true := by rw [right.isOp]
            refine .ifs same (fun closes => ?_) fun _ => pure ⟨h, rfl⟩
            refine .ite (fun _ => .fail _ hspan) fun _ => (here (Region.heads h)).see fun _ _ hopen => ?_
            refine skip (skip ((arrayOf _ hopen).see ?_))
            rintro _ ty rfl
            exact pure ⟨Region.tail (K := K) h₁ ((Token.Test.op Region.brackets.2).admitted closes), rfl⟩
    · rintro ts us _ ty h rfl
      exact pure ⟨h, hspan, rfl⟩

end Beside

namespace Beside

variable {α α' : Type} {K : Sides} {ts us : List Token} {depth : Nat}

theorem eatRightBrace (h : Aligned K (depth + 1) ts us) :
    Beside K ts us (Compiler.eatOp .rightBrace) (Compiler.eatOp .rightBrace) fun ts us a b =>
      (∃ t u, a = some t ∧ b = some u ∧ Aligned K depth ts us) ∨ a = none ∧ b = none ∧ Aligned K (depth + 1) ts us := by
  refine (eatIf (fun same => same.isOp _) (Region.heads h)).imp ?_
  rintro ts us a b (⟨t, u, rfl, rfl, holds, -, rfl, rfl⟩ | ⟨rfl, rfl, rfl, rfl⟩)
  · refine .inl ⟨t, u, rfl, rfl, ?_⟩
    cases h with
    | step same more =>
      have kind : t.kind = .operator .rightBrace := of_decide_eq_true holds
      simpa [Token.depthBehind, Token.isOp, kind] using more
  · exact .inr ⟨rfl, rfl, h⟩

theorem expectLeftBrace {cause : CompileError.Cause} (h : Aligned K (depth + 1) ts us) :
    Beside K ts us (Compiler.expectOp .leftBrace cause) (Compiler.expectOp .leftBrace cause)
      (Inside (Aligned K (depth + 2)) (Token.Alike K.R)) := by
  refine (eatIf (fun same => same.isOp _) (Region.heads h)).bind ?_
  rintro ts us a b (⟨t, u, rfl, rfl, holds, same, rfl, rfl⟩ | ⟨rfl, rfl, rfl, rfl⟩)
  · refine pure ⟨?_, same⟩
    cases h with
    | step same more => rwa [Token.depthBehind, if_pos holds] at more
  · exact missing cause (Region.heads h)

theorem expectRightBrace {cause : CompileError.Cause} (h : Aligned K (depth + 1) ts us) :
    Beside K ts us (Compiler.expectOp .rightBrace cause) (Compiler.expectOp .rightBrace cause)
      (Inside (Aligned K depth) fun _ _ => True) := by
  refine (eatRightBrace h).bind ?_
  rintro ts us a b (⟨t, u, rfl, rfl, h⟩ | ⟨rfl, rfl, h⟩)
  · exact pure ⟨h, trivial⟩
  · exact missing cause (Region.heads h)

end Beside
end Tickwise
