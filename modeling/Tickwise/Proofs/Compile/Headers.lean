import Tickwise.Compile.Unit
import Tickwise.Proofs.Compile.Building
set_option autoImplicit false

/-!
# Outlines

Classes and headers number nothing. Each declaration that is read has a token of its own, so that an outline
without an error has read all of them.
-/
namespace Tickwise

open Compile Compiler

theorem skipBlock?_suffix {depth : Nat} {tokens rest : List Token} (h : skipBlock? depth tokens = some rest) :
    rest <:+ tokens ∧ rest.length < tokens.length := by
  have longer {t : Token} {ts : List Token} (inner : rest <:+ ts) : rest <:+ t :: ts ∧ rest.length < (t :: ts).length :=
    ⟨inner.trans (List.suffix_cons t ts), Nat.lt_succ_of_le inner.length_le⟩
  fun_induction skipBlock? depth tokens with
  | case1 => cases h
  | case2 depth t ts _ ih => exact longer (ih h).1
  | case3 depth t ts =>
    cases h
    exact longer List.suffix_rfl
  | case4 depth t ts _ _ _ ih => exact longer (ih h).1
  | case5 depth t ts _ _ ih => exact longer (ih h).1

/-- The ranges of a header are of the kind that is known, also those of the body, which is not compiled yet. -/
structure Header.Placed (P : Span → Prop) (h : Header) : Prop where
  span : P h.span
  params : ∀ q ∈ h.params, P q.1.span
  body : ∀ t ∈ h.body, P t.span

namespace Builds

variable {K : Setting} {d k : Nat} {m : Next}

theorem fieldLine (cls : ClassLayout) :
    Builds K d k m (Compiler.fieldLine cls) (Kept m fun k' _ => k' < k) := by
  refine (typeName false).read fun k₁ (_, ty) _ ⟨_, fewer⟩ => ?_
  have names : Builds K d k₁ m (Compiler.loop cls fun cls => do
      let field ← Compiler.expectIdent
      if (cls.fieldIndex? field.text).isSome then Compiler.fail .duplicateSymbol field.span
      else
        let cls := { cls with fields := cls.fields ++ [⟨field.text, ty⟩] }
        if (← Compiler.eatOp .comma).isSome then return .inl cls else return .inr cls) (Kept m fun _ _ => True) := by
    refine loop (fun _ m' _ => m' = m) rfl ?_
    rintro k' _ cls _ rfl
    refine (expect _ _).read fun k₂ field _ ⟨hspan, fewer⟩ => .ite (fun _ => .fail _ hspan) fun _ => ?_
    exact (eatIf _).read fun k₃ _ le _ => .ite (fun _ => pure ⟨by omega, rfl⟩) fun _ => pure ⟨rfl, trivial⟩
  exact names.read fun k₂ _ _ _ => (expect _ _).read fun k₃ _ _ _ => keep (by omega)

theorem classDeclaration : Builds K d k m Compiler.classDeclaration (Kept m fun k' _ => k' < k) := by
  refine skip fun _ _ => (expect _ _).read fun k₁ name _ ⟨hspan, fewer⟩ => .ask (fun _ _ => rfl) fun ctx _ =>
    .ite (fun _ => .fail _ hspan) fun _ => (expect _ _).read fun k₂ _ _ _ => ?_
  have lines : Builds K d k₂ m (Compiler.loop ⟨name.text, []⟩ fun cls => do
      if (← Compiler.eatOp .rightBrace).isSome then return .inr cls else return .inl (← Compiler.fieldLine cls))
      (Kept m fun _ _ => True) := by
    refine loop (fun _ m' _ => m' = m) rfl ?_
    rintro k' _ cls _ rfl
    refine (eatIf _).read fun k₃ _ _ _ => .ite (fun _ => pure ⟨rfl, trivial⟩) fun _ => ?_
    exact (fieldLine cls).read fun k₄ _ _ fewer => pure ⟨by omega, rfl⟩
  exact lines.read fun k₃ _ _ _ => (eatIf _).read fun k₄ _ _ _ => keep (by omega)

theorem parameter : Builds K d k m Compiler.parameter (Kept m fun _ (q : Token × Ty) => K.span q.1.span) :=
  (typeName false).read fun _ _ _ _ => (expect _ _).read fun _ _ _ ⟨hspan, _⟩ => keep hspan

theorem parameters : Builds K d k m Compiler.parameters (Kept m fun _ (qs : List (Token × Ty)) => ∀ q ∈ qs, K.span q.1.span) := by
  refine (expect _ _).read fun k₁ _ _ _ => (eatIf _).read fun k₂ _ _ _ => .ite (fun _ => keep nofun) fun _ => ?_
  have list : Builds K d k₂ m (Compiler.commaList Compiler.parameter)
      fun _ m' qs => m' = m ∧ ∀ q ∈ qs.reverse, K.span q.1.span := by
    refine commaList (fun m' (qs : List (Token × Ty)) => m' = m ∧ ∀ q ∈ qs, K.span q.1.span) ⟨rfl, nofun⟩ ?_
    rintro k' _ qs _ ⟨rfl, hqs⟩
    refine parameter.imp ?_
    rintro _ _ q _ ⟨rfl, hq⟩
    exact ⟨rfl, List.forall_mem_cons.2 ⟨hq, hqs⟩⟩
  refine list.bind ?_
  rintro k₃ _ qs _ ⟨rfl, hqs⟩
  exact (expect _ _).read fun _ _ _ _ => keep fun q hq => hqs q (List.mem_reverse.2 hq)

theorem addFunction {h : Header} (hspan : K.span h.span) (known : K.known h.signature) :
    Builds K d k m (Compiler.addFunction h) (Kept m fun k' _ => k' = k) := by
  have added : Builds K d k m (onScopes (·.addFunction h.signature)) (Kept m fun k' _ => k' = k) := by
    refine ⟨fun {_ s} _ hs => ⟨k, m, Nat.le_refl k, ?_, rfl, rfl⟩, fun _ _ _ _ => rfl⟩
    by_cases again : s.scopes.functions.any fun g => g.name = h.signature.name ∧ g.params = h.signature.params
    · simp only [ScopeStack.addFunction, if_pos again]
      exact hs
    · simp only [ScopeStack.addFunction, if_neg again]
      exact { hs with known := List.forall_mem_append.2 ⟨hs.known, List.forall_mem_singleton.2 known⟩ }
  refine added.read ?_
  rintro _ _ _ rfl
  exact .ite (fun _ => keep rfl) fun _ => .fail _ hspan

theorem move {rest : List Token} (fewer : rest.length ≤ k) (spans : ∀ t ∈ rest, K.span t.span) :
    Builds K d k m (modify ({ · with rest := rest }) : Compiler Unit) (Kept m fun k' _ => k' = rest.length) :=
  ⟨fun _ hs => ⟨rest.length, m, fewer, { hs with tokens := rfl, spans := spans }, rfl, rfl⟩, fun _ _ _ _ => rfl⟩

theorem skipBody : Builds K d k m Compiler.skipBody
    (Kept m fun k' body => k' < k ∧ body.length ≤ k ∧ ∀ t ∈ body, K.span t.span) := by
  refine (atOp _).see fun _ _ => .ite (fun _ => get.see fun s hs => ?_) fun _ => here.see fun _ hspan => .failAt _ hspan
  dsimp only
  split
  case h_1 rest skipped =>
    obtain ⟨suffix, fewer⟩ := skipBlock?_suffix skipped
    have tokens := hs.tokens
    refine (move (by omega) fun t ht => hs.spans t (suffix.mem ht)).read ?_
    rintro _ _ _ rfl
    exact keep ⟨by omega, Nat.le_of_eq tokens, hs.spans⟩
  case h_2 => exact .ask (fun _ _ => rfl) fun _ hend => .failAt _ (.inr hend)

theorem functionHeader (id : FunctionId) (known : ∀ f, K.known f) : Builds K d k m (Compiler.functionHeader id)
    (Kept m fun k' h => k' < k ∧ h.body.length ≤ k ∧ h.Placed K.span) := by
  refine .ite (fun _ => here.see fun _ hspan => .failAt _ hspan) fun _ => (eatIf _).read fun k₁ _ le₁ _ =>
    (typeName true).read fun k₂ (_, ret) le₂ ⟨_, fewer⟩ => (expect _ _).read fun k₃ name le₃ ⟨hspan, _⟩ =>
      parameters.read fun k₄ params le₄ hparams => (addFunction hspan (known _)).read ?_
  rintro k₅ _ _ rfl
  exact skipBody.read fun k₆ body _ ⟨_, most, hbody⟩ =>
    keep ⟨by omega, Nat.le_trans most (by omega), hspan, hparams, hbody⟩

end Builds

/-- Between two functions no frame is open and no error is recorded. -/
structure Compile.State.Idle (s : State) : Prop where
  frames : s.scopes.frames = []
  fine : s.scopes.error = none

def Compile.outlining (P : Places) : Setting := ⟨P, 1, fun _ => False, fun _ => True⟩

structure Compile.Ended (P : Places) (k : Nat) (error : Option CompileError) (s : State) : Prop where
  placed : ∀ e ∈ error, P.Reports e.span
  idle : s.Idle
  fewer : error = none → s.rest.length < k
  ready : error = none → s.Ready (outlining P) 0 s.rest.length ⟨0, 1⟩

/-- The declarations that were read are placed in the source, and what follows can be read. -/
structure Compile.Outline.Sound (P : Places) (most : Nat) (o : Outline) : Prop where
  ended : Ended P (most + 1) o.error o.state
  headers : ∀ h ∈ o.headers, h.Placed P.span ∧ h.body.length ≤ most

namespace Compile.Outline

variable {α : Type} {P : Places} {most turns : Nat} {o : Outline} {ctx : Context} {c : Compiler α} {s : State}
  {k : Nat} {R : Nat → α → Prop}

theorem ended_of_builds (hc : Builds (outlining P) 0 k ⟨0, 1⟩ c (Kept ⟨0, 1⟩ R)) (hr : ∀ {k' a}, R k' a → k' < k)
    (hend : ctx.endSpan = P.stop) (hs : s.Ready (outlining P) 0 k ⟨0, 1⟩) :
    Ended P k (c ctx s).2.scopes.reset.1 { (c ctx s).2 with scopes := (c ctx s).2.scopes.reset.2 } := by
  have ends := hc.ends hend hs
  generalize c ctx s = r at ends ⊢
  obtain ⟨_ | a, s'⟩ := r
  · obtain ⟨e, he, hspan⟩ := ends
    have failed : s'.scopes.reset.1 = some e := he
    rw [failed]
    exact ⟨fun _ same => Option.some.inj same ▸ hspan, ⟨rfl, rfl⟩, nofun, nofun⟩
  · obtain ⟨k', _, _, ready, rfl, r⟩ := ends
    have fine : s'.scopes.reset.1 = none := ready.fine
    rw [fine]
    refine ⟨nofun, ⟨rfl, rfl⟩, fun _ => ready.tokens ▸ hr r, fun _ => ?_⟩
    exact { ready with tokens := rfl, fine := rfl, depth := rfl, vars := nofun }

def withClass (o : Outline) (r : Option ClassLayout × State) : Outline where
  classes := o.classes ++ r.1.toList
  headers := o.headers
  error := r.2.scopes.reset.1
  state := { r.2 with scopes := r.2.scopes.reset.2 }

def withHeader (o : Outline) (r : Option Header × State) : Outline where
  classes := o.classes
  headers := o.headers ++ r.1.toList
  error := r.2.scopes.reset.1
  state := { r.2 with scopes := r.2.scopes.reset.2 }

theorem extend_of_class (begins : o.state.rest.head?.any (·.isWord .classWord) = true) :
    o.extend ctx = o.withClass (Compiler.classDeclaration { ctx with classes := o.classes } o.state) := by
  unfold Outline.extend
  dsimp only
  rw [if_pos begins]
  rfl

theorem extend_of_function (other : o.state.rest.head?.any (·.isWord .classWord) = false) :
    o.extend ctx =
      o.withHeader (Compiler.functionHeader o.headers.length { ctx with classes := o.classes } o.state) := by
  unfold Outline.extend
  dsimp only
  rw [other, if_neg Bool.false_ne_true]
  rfl

theorem Sound.extend (ho : o.Sound P most) (fine : o.error = none) (hend : ctx.endSpan = P.stop) :
    (o.extend ctx).Sound P most ∧ Ended P o.state.rest.length (o.extend ctx).error (o.extend ctx).state := by
  have ready := ho.ended.ready fine
  have few := ho.ended.fewer fine
  have more {error : Option CompileError} {s : State} (h : Ended P o.state.rest.length error s) : Ended P (most + 1) error s :=
    { h with fewer := fun fine => Nat.lt_trans (h.fewer fine) few }
  replace hend : { ctx with classes := o.classes }.endSpan = P.stop := hend
  cases begins : o.state.rest.head?.any (·.isWord .classWord) with
  | true =>
    rw [extend_of_class begins]
    have h := ended_of_builds Builds.classDeclaration id hend ready
    exact ⟨⟨more h, ho.headers⟩, h⟩
  | false =>
    rw [extend_of_function begins]
    generalize { ctx with classes := o.classes } = inner at hend
    have builds : Builds (outlining P) 0 o.state.rest.length ⟨0, 1⟩ (Compiler.functionHeader o.headers.length) _ :=
      Builds.functionHeader o.headers.length fun _ => trivial
    have h := ended_of_builds builds And.left hend ready
    have ends := builds.ends hend ready
    generalize Compiler.functionHeader o.headers.length inner o.state = r at ends h ⊢
    refine ⟨⟨more h, List.forall_mem_append.2 ⟨ho.headers, ?_⟩⟩, h⟩
    obtain ⟨_ | h, s'⟩ := r
    · exact List.forall_mem_nil _
    · obtain ⟨k', _, _, _, rfl, _, short, placed⟩ := ends
      exact List.forall_mem_singleton.2 ⟨placed, Nat.le_trans short (Nat.le_of_lt_succ few)⟩

theorem Sound.extend_steady (ho : o.Sound P most) (fine : o.error = none) (hend : ctx.endSpan = P.stop)
    (hk : most < ctx.turns) (ht : most < turns) : o.extend { ctx with turns := turns } = o.extend ctx := by
  have ready := ho.ended.ready fine
  have few := ho.ended.fewer fine
  have few : o.state.rest.length < ctx.turns ∧ o.state.rest.length < turns := by omega
  unfold Outline.extend
  dsimp only
  replace hend : { ctx with classes := o.classes }.endSpan = P.stop := hend
  replace few : o.state.rest.length < { ctx with classes := o.classes }.turns ∧ o.state.rest.length < turns := few
  have cls := Builds.classDeclaration.steady hend few.1 few.2 ready
  have header := (Builds.functionHeader o.headers.length fun _ => trivial).steady hend few.1 few.2 ready
  dsimp only at cls header
  rw [cls, header]

theorem complete_of_done (done : o.state.rest = [] ∨ o.error.isSome) (ctx : Context) (turns : Nat) :
    Outline.complete ctx turns o = o := by
  cases turns with
  | zero => rfl
  | succ turns =>
    unfold Outline.complete
    exact if_pos done

theorem Sound.complete (ho : o.Sound P most) (hend : ctx.endSpan = P.stop) {turns : Nat} (ht : o.state.rest.length ≤ turns) :
    (Outline.complete ctx turns o).Sound P most ∧
      ((Outline.complete ctx turns o).error = none → (Outline.complete ctx turns o).state.rest = []) := by
  induction turns generalizing o with
  | zero => exact ⟨ho, fun _ => List.eq_nil_of_length_eq_zero (Nat.le_zero.1 ht)⟩
  | succ turns ih =>
    unfold Outline.complete
    split
    case isTrue done =>
      refine ⟨ho, fun fine => done.resolve_right fun failed => ?_⟩
      rw [fine] at failed
      cases failed
    case isFalse more =>
      obtain ⟨some, none⟩ := not_or.1 more
      have fine : o.error = .none := by simpa using none
      obtain ⟨ho', ended⟩ := ho.extend fine hend
      cases he : (o.extend ctx).error with
      | none => exact ih ho' (by have := ended.fewer he; omega)
      | some e =>
        rw [complete_of_done (.inr (by rw [he]; rfl))]
        exact ⟨ho', fun fine => by rw [he] at fine; cases fine⟩

theorem Sound.complete_steady (ho : o.Sound P most) (hend : ctx.endSpan = P.stop) (hk : most < ctx.turns) {turns' n : Nat}
    (hn : most < n) (ht : o.state.rest.length ≤ turns) (ht' : o.state.rest.length ≤ turns') :
    Outline.complete { ctx with turns := n } turns' o = Outline.complete ctx turns o := by
  induction turns generalizing turns' o with
  | zero => exact complete_of_done (.inl (List.eq_nil_of_length_eq_zero (Nat.le_zero.1 ht))) _ _
  | succ turns ih =>
    by_cases done : o.state.rest = [] ∨ o.error.isSome
    · rw [complete_of_done done, complete_of_done done]
    · obtain ⟨more, fine⟩ := not_or.1 done
      have fine : o.error = none := by simpa using fine
      obtain ⟨turns', rfl⟩ := Nat.exists_eq_succ_of_ne_zero (n := turns')
        (fun none => more (List.eq_nil_of_length_eq_zero (Nat.le_zero.1 (none ▸ ht'))))
      unfold Outline.complete
      rw [if_neg done, if_neg done, ho.extend_steady fine hend hk hn]
      obtain ⟨ho', ended⟩ := ho.extend fine hend
      cases he : (o.extend ctx).error with
      | none =>
        have fewer := ended.fewer he
        exact ih ho' (by omega) (by omega)
      | some e =>
        have done : (o.extend ctx).state.rest = [] ∨ (o.extend ctx).error.isSome := .inr (by rw [he]; rfl)
        rw [complete_of_done done, complete_of_done done]

end Compile.Outline
end Tickwise
