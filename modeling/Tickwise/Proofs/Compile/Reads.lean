import Tickwise.Compile.Declaration
set_option autoImplicit false

/-!
# Routines that only read

Most routines read tokens and allocate instructions and leave the scopes alone. When such a routine
fails it has recorded an error.
-/
namespace Tickwise.Compiler

open Compile

variable {α β σ : Type} {c : Compiler α} {ctx : Context} {s : State}

theorem bind_apply (c : Compiler α) (f : α → Compiler β) (ctx : Context) (s : State) :
    (c >>= f) ctx s = match c ctx s with
      | (some a, s') => f a ctx s'
      | (none, s') => (none, s') := by
  simp only [bind, ReaderT.bind, OptionT.bind, OptionT.mk, StateT.bind]
  rcases c ctx s with ⟨_ | _, _⟩ <;> rfl

theorem some_of_bind {f : α → Compiler β} {b : β} {s' : State}
    (h : (c >>= f) ctx s = (some b, s')) :
    ∃ a s₁, c ctx s = (some a, s₁) ∧ f a ctx s₁ = (some b, s') := by
  rw [bind_apply] at h
  generalize c ctx s = r at h
  rcases r with ⟨_ | a, s₁⟩
  · cases h
  · exact ⟨a, s₁, rfl, h⟩

theorem some_of_map {f : α → β} {b : β} {s' : State} (h : (f <$> c) ctx s = (some b, s')) :
    ∃ a, c ctx s = (some a, s') ∧ b = f a := by
  obtain ⟨a, s₁, hc, hf⟩ := some_of_bind (f := fun a => pure (f a)) h
  cases hf
  exact ⟨a, hc, rfl⟩

theorem some_of_onScopes? {f : ScopeStack → Option α × ScopeStack} {a : α} {s' : State}
    (h : onScopes? f ctx s = (some a, s')) :
    ∃ scopes, f s.scopes = (some a, scopes) ∧ s' = { s with scopes := scopes } := by
  obtain ⟨answer, rfl⟩ := Prod.mk.inj h
  exact ⟨(f s.scopes).2, Prod.ext answer rfl, rfl⟩

/-- The scopes are as before, but for an error when the routine fails. -/
structure Reads (c : Compiler α) : Prop where
  leaves : ∀ ctx s, (∃ a, (c ctx s).1 = some a ∧ (c ctx s).2.scopes = s.scopes) ∨
    ∃ cause span, (c ctx s).1 = none ∧ (c ctx s).2.scopes = s.scopes.recordError cause span

namespace Reads

theorem scopes (h : Reads c) {a : α} {s' : State} (hc : c ctx s = (some a, s')) :
    s'.scopes = s.scopes := by
  rcases h.leaves ctx s with ⟨b, _, same⟩ | ⟨cause, span, failed, _⟩
  · rw [hc] at same
    exact same
  · rw [hc] at failed
    cases failed

theorem pure (a : α) : Reads (pure a : Compiler α) := ⟨fun _ _ => .inl ⟨a, rfl, rfl⟩⟩

theorem fail (cause : CompileError.Cause) (span : Span) : Reads (fail cause span : Compiler α) :=
  ⟨fun _ _ => .inr ⟨cause, span, rfl, rfl⟩⟩

theorem bind {f : α → Compiler β} (hc : Reads c) (hf : ∀ a, Reads (f a)) : Reads (c >>= f) := by
  refine ⟨fun ctx s => ?_⟩
  rw [bind_apply]
  have first := hc.leaves ctx s
  generalize c ctx s = r at first
  rcases r with ⟨_ | a, s'⟩
  · rcases first with ⟨a, answer, _⟩ | ⟨cause, span, _, same⟩
    · cases answer
    · exact .inr ⟨cause, span, rfl, same⟩
  · rcases first with ⟨_, _, same⟩ | ⟨cause, span, failed, _⟩
    · have second := (hf a).leaves ctx s'
      rw [same] at second
      exact second
    · cases failed

theorem ite {q : Prop} [Decidable q] {d : Compiler α} (hc : Reads c) (hd : Reads d) :
    Reads (if q then c else d) := by
  split
  · exact hc
  · exact hd

theorem peek? : Reads peek? := ⟨fun _ _ => .inl ⟨_, rfl, rfl⟩⟩

theorem peekSecond? : Reads peekSecond? := ⟨fun _ _ => .inl ⟨_, rfl, rfl⟩⟩

theorem here : Reads here := ⟨fun _ _ => .inl ⟨_, rfl, rfl⟩⟩

theorem advance? : Reads advance? := ⟨fun _ _ => .inl ⟨_, rfl, rfl⟩⟩

theorem atOp (op : Operator) : Reads (atOp op) := ⟨fun _ _ => .inl ⟨_, rfl, rfl⟩⟩

theorem read : Reads (read : Compiler Context) := ⟨fun _ _ => .inl ⟨_, rfl, rfl⟩⟩

theorem get : Reads (get : Compiler State) := ⟨fun _ _ => .inl ⟨_, rfl, rfl⟩⟩

theorem eatIf (p : Token → Bool) : Reads (eatIf p) := .bind .get fun _ => .ite .advance? (.pure _)

theorem missing (cause : CompileError.Cause) : Reads (missing cause : Compiler α) :=
  .bind .get fun _ => .bind .here fun _ => .fail _ _

theorem expect (p : Token → Bool) (cause : CompileError.Cause) : Reads (expect p cause) := by
  refine .bind (.eatIf p) fun token? => ?_
  cases token? with
  | none => exact .missing cause
  | some token => exact .pure token

theorem expectIdent : Reads expectIdent := .expect _ _

theorem iterate {step : σ → Compiler (σ ⊕ α)} (hs : ∀ state, Reads (step state)) (turns : Nat)
    (state : σ) : Reads (iterate step turns state) := by
  induction turns generalizing state with
  | zero => exact .bind .read fun _ => .fail _ _
  | succ turns ih =>
    refine .bind (hs state) fun next => ?_
    cases next with
    | inl state => exact ih state
    | inr result => exact .pure result

theorem loop (start : σ) {step : σ → Compiler (σ ⊕ α)} (hs : ∀ state, Reads (step state)) :
    Reads (loop start step) :=
  .bind .read fun ctx => .iterate hs ctx.turns start

theorem commaList {item : Compiler α} (h : Reads item) : Reads (commaList item) :=
  .loop [] fun _ => .bind h fun _ => .bind (.eatIf _) fun _ => .ite (.pure _) (.pure _)

theorem arrayOf (ty : Ty) (span : Span) : Reads (arrayOf ty span) := .ite (.fail _ _) (.pure _)

theorem baseType (allowVoid : Bool) (token : Token) : Reads (baseType allowVoid token) := by
  unfold Compiler.baseType
  split
  · exact .ite (.pure _) (.fail _ _)
  · exact .pure _
  · exact .pure _
  · exact .pure _
  · exact .pure _
  · exact .bind .read fun _ => .ite (.pure _) (.fail _ _)
  · exact .fail _ _

theorem typeName (allowVoid : Bool) : Reads (typeName allowVoid) := by
  refine .bind .peek? fun token? => ?_
  cases token? with
  | none => exact .bind .read fun _ => .fail _ _
  | some token =>
    refine .bind (.baseType allowVoid token) fun base => .bind .advance? fun _ =>
      .bind (.loop base fun ty => ?_) fun _ => .pure _
    exact .bind (.atOp _) fun _ => .bind .peekSecond? fun _ => .ite
      (.ite (.fail _ _) (.bind .here fun _ => .bind .advance? fun _ => .bind .advance? fun _ =>
        .bind (.arrayOf ..) fun _ => .pure _))
      (.pure _)

theorem fieldLine (cls : ClassLayout) : Reads (fieldLine cls) := by
  refine .bind (.typeName false) fun (_, ty) => .bind (.loop cls fun cls => ?_) fun _ =>
    .bind (.expect ..) fun _ => .pure _
  exact .bind .expectIdent fun _ => .ite (.fail _ _)
    (.bind (.eatIf _) fun _ => .ite (.pure _) (.pure _))

theorem classDeclaration : Reads classDeclaration := by
  refine .bind .advance? fun _ => .bind .expectIdent fun name => .bind .read fun ctx =>
    .ite (.fail _ _) (.bind (.expect ..) fun _ => .bind (.loop _ fun cls => ?_) fun _ =>
      .bind (.eatIf _) fun _ => .pure _)
  exact .bind (.eatIf _) fun _ => .ite (.pure _) (.bind (.fieldLine cls) fun _ => .pure _)

theorem parameter : Reads parameter :=
  .bind (.typeName false) fun _ => .bind .expectIdent fun _ => .pure _

theorem parameters : Reads parameters :=
  .bind (.expect _ _) fun _ => .bind (.eatIf _) fun _ => .ite (.pure _)
    (.bind (.commaList .parameter) fun _ => .bind (.expect _ _) fun _ => .pure _)

theorem skipBody : Reads skipBody := by
  refine .bind (.atOp _) fun _ => .ite (.bind .get fun s => ?_) (.bind .here fun _ => .fail _ _)
  have replace (rest : List Token) : Reads (modify ({ · with rest := rest }) : Compiler Unit) :=
    ⟨fun _ _ => .inl ⟨_, rfl, rfl⟩⟩
  dsimp only
  split
  · exact .bind (replace _) fun _ => .pure _
  · exact .bind .read fun _ => .fail _ _

end Reads
end Tickwise.Compiler
