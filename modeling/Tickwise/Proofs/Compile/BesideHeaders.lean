import Tickwise.Proofs.Compile.BesideStatements
set_option autoImplicit false

/-!
# Headers side by side

The first pass reads two units that differ in the bodies of functions. It reads the same classes and the same headers,
since it only skips over bodies.
-/
namespace Tickwise

open Compile Compiler

/-- Two bodies with what follows them: each begins with a block, and what is behind the opening braces is related. -/
inductive Compile.Bodies (R : Span → Span → Prop) (B : List Token → List Token → Prop) :
    List Token → List Token → List Token → List Token → Prop
  | mk {t u : Token} {block block' rest rest' : List Token} (opens : t.isOp .leftBrace = true) (same : t.Alike R u)
    (left : skipBlock? 1 (block ++ rest) = some rest) (right : skipBlock? 1 (block' ++ rest') = some rest')
    (related : B block block') : Bodies R B (t :: (block ++ rest)) (u :: (block' ++ rest')) rest rest'

theorem Compile.Bodies.skips {R : Span → Span → Prop} {B : List Token → List Token → Prop}
    {ts us rest rest' : List Token}
    (h : Bodies R B ts us rest rest') : skipBlock? 0 ts = some rest ∧ skipBlock? 0 us = some rest' := by
  cases h with
  | mk opens same left right =>
    rw [skipBlock?, skipBlock?, if_pos opens, if_pos ((same.isOp _).symm.trans opens)]
    exact ⟨left, right⟩

theorem Compile.Bodies.imp {R : Span → Span → Prop} {B B' : List Token → List Token → Prop}
    {ts us rest rest' : List Token}
    (h : Bodies R B ts us rest rest') (weaker : ∀ block block', B block block' → B' block block') :
    Bodies R B' ts us rest rest' := by
  cases h with
  | mk opens same left right related => exact .mk opens same left right (weaker _ _ related)

/-- Units that are alike but for the bodies of functions. `id` is the position of the next function. -/
inductive Compile.Parted (R : Span → Span → Prop) (B : FunctionId → List Token → List Token → Prop) :
    (id : FunctionId) → List Token → List Token → Prop
  | nil (id : FunctionId) : Parted R B id [] []
  | step {id : FunctionId} {t u : Token} {ts us : List Token} (same : t.Alike R u)
    (outside : t.isOp .rightParen = true → ts.head?.any (·.isOp .leftBrace) = false) (more : Parted R B id ts us) :
    Parted R B id (t :: ts) (u :: us)
  | body {id : FunctionId} {t u : Token} {ts us rest rest' : List Token} (same : t.Alike R u)
    (closes : t.isOp .rightParen = true) (bodies : Bodies R (B id) ts us rest rest')
    (more : Parted R B (id + 1) rest rest') :
    Parted R B id (t :: ts) (u :: us)

inductive Compile.AtBody (R : Span → Span → Prop) (B : FunctionId → List Token → List Token → Prop) (id : FunctionId) :
    List Token → List Token → Prop
  | none {ts us : List Token} (outside : ts.head?.any (·.isOp .leftBrace) = false) (more : Parted R B id ts us) :
    AtBody R B id ts us
  | some {ts us rest rest' : List Token} (bodies : Bodies R (B id) ts us rest rest')
    (more : Parted R B (id + 1) rest rest') :
    AtBody R B id ts us

structure Header.Alike (R : Span → Span → Prop) (B : FunctionId → List Token → List Token → Prop) (g h : Header) :
    Prop where
  id : g.id = h.id
  name : g.name = h.name
  span : R g.span h.span
  params : ParamsAlike R g.params h.params
  ret : g.ret = h.ret
  body : ∃ rest rest', Bodies R (B g.id) g.body h.body rest rest'

namespace Compile.Parted

variable {R : Span → Span → Prop} {B : FunctionId → List Token → List Token → Prop} {id : FunctionId}
  {ts us : List Token}

theorem heads (h : Parted R B id ts us) : Heads R ts us := by
  cases h with
  | nil => exact .none
  | step same => exact .some _ _ same
  | body same => exact .some _ _ same

instance region {K : Sides} : Region K (Parted K.R B id) where
  admits op := decide (op ≠ .rightParen)
  heads := heads
  tail h admitted := by
    cases h with
    | step _ _ more => exact more
    | body _ closes =>
      have kind := of_decide_eq_true closes
      exact absurd rfl (of_decide_eq_true (admitted _ kind))
  comma := rfl
  brackets := ⟨rfl, rfl⟩

theorem behind {t u : Token} (h : Parted R B id (t :: ts) (u :: us)) (closes : t.isOp .rightParen = true) :
    AtBody R B id ts us := by
  cases h with
  | step _ outside more => exact .none (outside closes) more
  | body _ _ bodies more => exact .some bodies more

end Compile.Parted

namespace Beside

variable {K : Sides} {B : FunctionId → List Token → List Token → Prop} {id : FunctionId} {ts us : List Token}

theorem fieldLine (cls : ClassLayout) (h : Parted K.R B id ts us) :
    Beside K ts us (fieldLine cls) (fieldLine cls) (Inside (Parted K.R B id) fun a b => b = a) := by
  refine (typeName h false).next ?_
  rintro ts us ⟨_, _⟩ ⟨_, ty⟩ h ⟨-, rfl⟩
  refine next (G := Parted K.R B id) (A := fun a b => b = a)
    (loop (Inside (Parted K.R B id) fun a b => b = a) ⟨h, rfl⟩ ?_) ?_
  · rintro ts us _ cls ⟨h, rfl⟩
    refine (expectIdent h).next fun h same => ?_
    obtain ⟨_, text, hspan⟩ := same
    refine .ite (fun _ => .fail _ hspan) fun _ => (eatOp h .comma rfl).next fun h comma => ?_
    cases comma with
    | none => exact pure ⟨h, rfl⟩
    | some => exact pure ⟨h, rfl⟩
  · rintro ts us _ cls h rfl
    exact (expectOp h .semicolon rfl).next fun h _ => pure ⟨h, rfl⟩

theorem classDeclaration (h : Parted K.R B id ts us) (begins : ts.head?.any (·.isWord .classWord) = true) :
    Beside K ts us classDeclaration classDeclaration (Inside (Parted K.R B id) fun a b => b = a) := by
  cases h.heads with
  | none => cases begins
  | some ts us same =>
    have h : Parted K.R B id _ _ := Region.tail (K := K) h ((Token.Test.word .classWord).admitted begins)
    refine skip ((expectIdent h).next fun h same => .ask fun ctx _ => ?_)
    obtain ⟨_, text, hspan⟩ := same
    refine .ite (fun _ => .fail _ hspan) fun _ => (expectOp h .leftBrace rfl).next fun h _ => ?_
    refine next (G := Parted K.R B id) (A := fun a b => b = a)
      (loop (Inside (Parted K.R B id) fun a b => b = a) ⟨h, rfl⟩ ?_) ?_
    · rintro ts us _ cls ⟨h, rfl⟩
      refine (eatOp h .rightBrace rfl).next fun h closing => ?_
      cases closing with
      | some => exact pure ⟨h, rfl⟩
      | none =>
        refine (fieldLine cls h).next ?_
        rintro ts us _ cls h rfl
        exact pure ⟨h, rfl⟩
    · rintro ts us _ cls h rfl
      exact (eatOp h .semicolon rfl).next fun h _ => pure ⟨h, rfl⟩

theorem parameter (h : Parted K.R B id ts us) :
    Beside K ts us parameter parameter (Inside (Parted K.R B id) fun p q => p.1.Alike K.R q.1 ∧ q.2 = p.2) := by
  refine (typeName h false).next ?_
  rintro ts us ⟨_, _⟩ ⟨_, ty⟩ h ⟨-, rfl⟩
  exact (expectIdent h).next fun h same => pure ⟨h, same, rfl⟩

theorem eatRightParen (h : Parted K.R B id ts us) :
    Beside K ts us (Compiler.eatOp .rightParen) (Compiler.eatOp .rightParen) fun ts us a b =>
      (∃ t u, a = some t ∧ b = some u ∧ AtBody K.R B id ts us) ∨ a = none ∧ b = none ∧ Parted K.R B id ts us := by
  refine (eatIf (fun same => same.isOp _) h.heads).imp ?_
  rintro ts us a b (⟨t, u, rfl, rfl, closes, -, rfl, rfl⟩ | ⟨rfl, rfl, rfl, rfl⟩)
  · exact .inl ⟨t, u, rfl, rfl, h.behind closes⟩
  · exact .inr ⟨rfl, rfl, h⟩

theorem expectRightParen {cause : CompileError.Cause} (h : Parted K.R B id ts us) :
    Beside K ts us (Compiler.expectOp .rightParen cause) (Compiler.expectOp .rightParen cause)
      (Inside (AtBody K.R B id) fun _ _ => True) := by
  refine (eatRightParen h).bind ?_
  rintro ts us _ _ (⟨_, _, rfl, rfl, h⟩ | ⟨rfl, rfl, h⟩)
  · exact pure ⟨h, trivial⟩
  · exact missing _ h.heads

theorem parameters (h : Parted K.R B id ts us) :
    Beside K ts us parameters parameters (Inside (AtBody K.R B id) (ParamsAlike K.R)) := by
  refine (expectOp h .leftParen rfl).next fun h _ => (eatRightParen h).bind ?_
  rintro ts us _ _ (⟨_, _, rfl, rfl, h⟩ | ⟨rfl, rfl, h⟩)
  · exact pure ⟨h, .nil⟩
  · refine .ite (fun closed => nomatch closed) fun _ => (commaList h parameter).next fun h params => ?_
    exact (expectRightParen h).next fun h _ => pure ⟨h, params⟩

theorem addFunction {g h : Header} (same : g.signature = h.signature) (hspan : K.R g.span h.span)
    (known : ∀ fs ns, K.known fs ns) :
    Beside K ts us (addFunction g) (addFunction h) (Here ts us fun _ _ => True) := by
  refine see (A := fun a b => b = a) (onScopes fun s t scopes => ?_) ?_
  · unfold ScopeStack.addFunction
    rw [same, scopes.functions]
    split
    · exact ⟨scopes, rfl⟩
    · exact ⟨{ scopes with functions := rfl, known := known .. }, rfl⟩
  · rintro _ added rfl
    exact .ite (fun _ => pure ⟨rfl, rfl, trivial⟩) fun _ => .fail _ hspan

theorem skipBody (h : AtBody K.R B id ts us) : Beside K ts us skipBody skipBody
    (Inside (Parted K.R B (id + 1)) fun body body' => ∃ rest rest', Bodies K.R (B id) body body' rest rest') := by
  cases h with
  | none outside more =>
    refine (atOp more.heads .leftBrace).see ?_
    rintro _ opens ⟨known, rfl⟩
    obtain rfl : opens = false := known.trans outside
    exact (here more.heads).see fun _ _ hspan => .fail _ hspan
  | some bodies more =>
    have whole := bodies
    obtain ⟨skips, skips'⟩ := bodies.skips
    obtain ⟨opens, same⟩ := bodies
    refine (atOp (.some _ _ same) .leftBrace).see ?_
    rintro _ begins ⟨known, rfl⟩
    obtain rfl : begins = true := known.trans opens
    refine get.see ?_
    rintro s s' ⟨-, hs, hs'⟩
    dsimp only
    rw [hs, hs', skips, skips']
    exact ⟨fun _ _ _ _ _ _ scopes => ⟨scopes, more, _, _, whole⟩⟩

theorem functionHeader (h : Parted K.R B id ts us) (known : ∀ fs ns, K.known fs ns) :
    Beside K ts us (functionHeader id) (functionHeader id) (Inside (Parted K.R B (id + 1)) (Header.Alike K.R B)) := by
  refine .ite (fun _ => (here h.heads).see fun _ _ hspan => .fail _ hspan) fun _ => ?_
  refine (eatWord h .externWord).next fun h _ => ?_
  refine (typeName h true).next ?_
  rintro ts us ⟨_, _⟩ ⟨_, ret⟩ h ⟨-, rfl⟩
  refine (expectIdent h).next fun h name => (parameters h).next fun {ts us params params'} h hparams => ?_
  obtain ⟨_, text, hspan⟩ := name
  refine (addFunction ?_ hspan known).see fun _ _ _ => (skipBody h).next fun h bodies => ?_
  · simp only [Header.signature, ParamsAlike.types hparams]
  · exact pure ⟨h, rfl, rfl, hspan, hparams, rfl, bodies⟩

end Beside

theorem ScopeStack.Alike.reset {K : Sides} {s t : ScopeStack} (h : s.Alike K t) :
    Option.Rel (CompileError.Alike K.R) s.reset.1 t.reset.1 ∧ s.reset.2.Alike K t.reset.2 :=
  ⟨h.error, { h with frames := .nil, error := .none }⟩

namespace Compile

/-- Outlines of the same classes and headers, up to the same error, with what is left of the units. -/
structure Outline.Alike (K : Sides) (B : FunctionId → List Token → List Token → Prop) (o o' : Outline) : Prop where
  rest : o.error = none → Parted K.R B o.headers.length o.state.rest o'.state.rest
  scopes : o.state.scopes.Alike K o'.state.scopes
  classes : o'.classes = o.classes
  headers : o.headers.Forall₂ (Header.Alike K.R B) o'.headers
  error : Option.Rel (CompileError.Alike K.R) o.error o'.error

namespace Outline.Alike

variable {K : Sides} {B : FunctionId → List Token → List Token → Prop} {o o' : Outline} {ctx : Context}

theorem extend (h : o.Alike K B o') (fine : o.error = none) (stop : K.R ctx.endSpan K.stop)
    (known : ∀ fs ns, K.known fs ns) :
    (o.extend ctx).Alike K B (o'.extend { ctx with endSpan := K.stop }) := by
  have parted := h.rest fine
  have same : o.state.rest.head?.any (·.isWord .classWord) = o'.state.rest.head?.any (·.isWord .classWord) :=
    parted.heads.any fun same => same.isWord _
  have failed {s : State} {ts us : List Token} {n : Nat} (blamed : s.scopes.error.isSome = true)
      (fine : s.scopes.reset.1 = none) : Parted K.R B n ts us := by
    rw [show s.scopes.error = none from fine] at blamed
    cases blamed
  let inner : Context := { ctx with classes := o.classes }
  cases begins : o.state.rest.head?.any (·.isWord .classWord) with
  | true =>
    rw [extend_of_class begins, extend_of_class (same ▸ begins), h.classes]
    have ends := (Beside.classDeclaration parted begins).ends inner stop rfl rfl h.scopes
    have blames := Reads.classDeclaration.blames inner o.state
    change Outline.Alike K B (o.withClass (Compiler.classDeclaration inner o.state))
      (o'.withClass (Compiler.classDeclaration { inner with endSpan := K.stop } o'.state))
    generalize Compiler.classDeclaration inner o.state = r at ends blames ⊢
    generalize Compiler.classDeclaration { inner with endSpan := K.stop } o'.state = r' at ends ⊢
    obtain ⟨_ | cls, s⟩ := r <;> obtain ⟨_ | cls', s'⟩ := r'
    · exact ⟨failed (blames rfl), ends.reset.2, congrArg (· ++ []) h.classes, h.headers, ends.reset.1⟩
    · exact ends.elim
    · exact ends.elim
    · obtain ⟨scopes, more, rfl⟩ := ends
      exact ⟨fun _ => more, scopes.reset.2, congrArg (· ++ [cls']) h.classes, h.headers, scopes.reset.1⟩
  | false =>
    rw [extend_of_function begins, extend_of_function (same ▸ begins), h.classes, ← h.headers.length_eq]
    have ends := (Beside.functionHeader parted known).ends inner stop rfl rfl h.scopes
    have blames := blames_functionHeader o.headers.length inner o.state
    change Outline.Alike K B (o.withHeader (Compiler.functionHeader o.headers.length inner o.state))
      (o'.withHeader (Compiler.functionHeader o.headers.length { inner with endSpan := K.stop } o'.state))
    generalize Compiler.functionHeader o.headers.length inner o.state = r at ends blames ⊢
    generalize Compiler.functionHeader o.headers.length { inner with endSpan := K.stop } o'.state = r' at ends ⊢
    obtain ⟨_ | header, s⟩ := r <;> obtain ⟨_ | header', s'⟩ := r'
    · refine ⟨failed (blames rfl), ends.reset.2, h.classes, ?_, ends.reset.1⟩
      exact List.rel_append h.headers .nil
    · exact ends.elim
    · exact ends.elim
    · obtain ⟨scopes, more, alike⟩ := ends
      refine ⟨fun _ => ?_, scopes.reset.2, h.classes, List.rel_append h.headers (.cons alike .nil), scopes.reset.1⟩
      rw [withHeader, List.length_append]
      exact more

theorem complete (ctx : Context) (h : o.Alike K B o') (stop : K.R ctx.endSpan K.stop)
    (known : ∀ fs ns, K.known fs ns) (turns : Nat) :
    (Outline.complete ctx turns o).Alike K B (Outline.complete { ctx with endSpan := K.stop } turns o') := by
  induction turns generalizing o o' with
  | zero => exact h
  | succ turns ih =>
    have agree : o.state.rest = [] ∨ o.error.isSome = true ↔ o'.state.rest = [] ∨ o'.error.isSome = true := by
      have error := h.error
      have parted := h.rest
      generalize o.error = e at error parted
      generalize o'.error = e' at error
      cases error with
      | some => exact ⟨fun _ => .inr rfl, fun _ => .inr rfl⟩
      | none => exact or_congr_left (parted rfl).heads.nil_iff
    unfold Outline.complete
    by_cases done : o.state.rest = [] ∨ o.error.isSome = true
    · rw [if_pos done, if_pos (agree.1 done)]
      exact h
    · rw [if_neg done, if_neg (mt agree.2 done)]
      have fine : o.error = none := by simpa using (not_or.1 done).2
      exact ih (h.extend fine stop known)

end Outline.Alike
end Compile
end Tickwise
