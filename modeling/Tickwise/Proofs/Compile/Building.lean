import Tickwise.Proofs.Compile.Reads
import Tickwise.Proofs.Compile.Trees
set_option autoImplicit false

/-!
# What routines build

A routine that succeeds has recorded no error, and one that fails has recorded one, at the range of a token or
behind the last one. It never runs out of turns: with more of them it does the same.
-/
namespace Tickwise

open Compile Compiler

/-- A state with `d` open frames and `k` tokens left, where no error is recorded. -/
structure Compile.State.Ready (K : Setting) (d k : Nat) (m : Next) (s : State) : Prop where
  tokens : s.rest.length = k
  spans : ∀ t ∈ s.rest, K.span t.span
  node : s.nextNode = m.node
  var : s.scopes.nextVar = m.var
  fine : s.scopes.error = none
  depth : s.scopes.frames.length = d
  base : K.base ≤ m.var
  vars : ∀ f ∈ s.scopes.frames, ∀ x ∈ f.vars, K.Declares m x.id
  known : ∀ f ∈ s.scopes.functions, K.known f

/-- How a routine ends: with an answer and no error, or with an error. -/
def Compile.Ends {α : Type} (K : Setting) (d k : Nat) (Q : Nat → Next → α → Prop) : Option α × State → Prop
  | (some a, s) => ∃ k' m', k' ≤ k ∧ s.Ready K d k' m' ∧ Q k' m' a
  | (none, s) => ∃ e, s.scopes.error = some e ∧ K.Reports e.span

/-- With `k` tokens and the numbers `m` the routine ends so, and more turns than there are tokens change nothing. -/
structure Builds {α : Type} (K : Setting) (d k : Nat) (m : Next) (c : Compiler α) (Q : Nat → Next → α → Prop) :
    Prop where
  ends : ∀ {ctx s}, ctx.endSpan = K.stop → s.Ready K d k m → Ends K d k Q (c ctx s)
  steady : ∀ {ctx s turns}, ctx.endSpan = K.stop → k < ctx.turns → k < turns → s.Ready K d k m →
    c { ctx with turns := turns } s = c ctx s

namespace Builds

variable {α β σ : Type} {K : Setting} {d k : Nat} {m : Next} {c : Compiler α} {Q : Nat → Next → α → Prop}
  {Q' : Nat → Next → β → Prop}

theorem pure {a : α} (h : Q k m a) : Builds K d k m (pure a) Q :=
  ⟨fun _ hs => ⟨k, m, Nat.le_refl k, hs, h⟩, fun _ _ _ _ => rfl⟩

theorem failAt (cause : CompileError.Cause) {span : Span} (hspan : K.Reports span) :
    Builds K d k m (Compiler.fail cause span) Q := by
  refine ⟨fun {ctx s} _ hs => ⟨⟨cause, span⟩, ?_, hspan⟩, fun _ _ _ _ => rfl⟩
  change (s.scopes.recordError cause span).error = _
  simp [ScopeStack.recordError, hs.fine]

theorem fail (cause : CompileError.Cause) {span : Span} (hspan : K.span span) :
    Builds K d k m (Compiler.fail cause span) Q :=
  failAt cause (.inl hspan)

theorem imp {Q₁ : Nat → Next → α → Prop} (h : Builds K d k m c Q) (himp : ∀ k' m' a, k' ≤ k → Q k' m' a → Q₁ k' m' a) :
    Builds K d k m c Q₁ := by
  refine ⟨fun {ctx s} hend hs => ?_, h.steady⟩
  have ends := h.ends hend hs
  generalize c ctx s = r at ends
  obtain ⟨_ | a, s'⟩ := r
  · exact ends
  · obtain ⟨k', m', le, ready, q⟩ := ends
    exact ⟨k', m', le, ready, himp k' m' a le q⟩

theorem bind {f : α → Compiler β} (first : Builds K d k m c Q)
    (second : ∀ k' m' a, k' ≤ k → Q k' m' a → Builds K d k' m' (f a) Q') : Builds K d k m (c >>= f) Q' := by
  constructor
  · intro ctx s hend hs
    have ends := first.ends hend hs
    rw [bind_apply]
    generalize c ctx s = r at ends
    obtain ⟨_ | a, s'⟩ := r
    · exact ends
    · obtain ⟨k', m', le, ready, q⟩ := ends
      have rest := (second k' m' a le q).ends hend ready
      dsimp only
      generalize f a ctx s' = r at rest
      obtain ⟨_ | b, s''⟩ := r
      · exact rest
      · obtain ⟨k'', m'', le', ready', q'⟩ := rest
        exact ⟨k'', m'', Nat.le_trans le' le, ready', q'⟩
  · intro ctx s turns hend hk ht hs
    have ends := first.ends hend hs
    rw [bind_apply, bind_apply, first.steady hend hk ht hs]
    generalize c ctx s = r at ends
    obtain ⟨_ | a, s'⟩ := r
    · rfl
    · obtain ⟨k', m', le, ready, q⟩ := ends
      exact (second k' m' a le q).steady hend (Nat.lt_of_le_of_lt le hk) (Nat.lt_of_le_of_lt le ht) ready

theorem pureBind {f : α → Compiler β} {a : α} (h : Builds K d k m (f a) Q') :
    Builds K d k m (Pure.pure a >>= f) Q' := h

theorem failBind {f : α → Compiler β} (cause : CompileError.Cause) {span : Span} (hspan : K.span span) :
    Builds K d k m (Compiler.fail cause span >>= f) Q' :=
  (fail (Q := fun _ _ _ => False) cause hspan).bind fun _ _ _ _ h => h.elim

theorem ite {q : Prop} [Decidable q] {c' : Compiler α} (hc : q → Builds K d k m c Q)
    (hd : ¬ q → Builds K d k m c' Q) : Builds K d k m (if q then c else c') Q := by
  split
  case isTrue h => exact hc h
  case isFalse h => exact hd h

theorem map {f : α → β} (h : Builds K d k m c fun k' m' a => Q' k' m' (f a)) : Builds K d k m (f <$> c) Q' :=
  h.bind fun _ _ _ _ => pure

theorem ask {f : Context → Compiler β} (same : ∀ ctx turns, f { ctx with turns := turns } = f ctx)
    (h : ∀ ctx, ctx.endSpan = K.stop → Builds K d k m (f ctx) Q') : Builds K d k m (read >>= f) Q' := by
  constructor
  · intro ctx s hend hs
    exact (h ctx hend).ends hend hs
  · intro ctx s turns hend hk ht hs
    change f { ctx with turns := turns } { ctx with turns := turns } s = f ctx ctx s
    rw [same]
    exact (h ctx hend).steady hend hk ht hs

theorem withReader {f : Context → Context} (h : Builds K d k m c Q) (turns : ∀ ctx, (f ctx).turns = ctx.turns)
    (endSpan : ∀ ctx, (f ctx).endSpan = ctx.endSpan)
    (same : ∀ ctx turns, f { ctx with turns := turns } = { f ctx with turns := turns }) :
    Builds K d k m (withReader f c) Q := by
  constructor
  · intro ctx s hend hs
    exact h.ends ((endSpan ctx).trans hend) hs
  · intro ctx s n hend hk ht hs
    change c (f { ctx with turns := n }) s = c (f ctx) s
    rw [same]
    exact h.steady ((endSpan ctx).trans hend) (turns ctx ▸ hk) ht hs

end Builds

/-- The counters are left as they are. -/
def Compile.Kept {α : Type} (m : Next) (R : Nat → α → Prop) (k' : Nat) (m' : Next) (a : α) : Prop := m' = m ∧ R k' a

namespace Builds

variable {α β σ : Type} {K : Setting} {d k : Nat} {m : Next} {c : Compiler α} {Q : Nat → Next → α → Prop}
  {Q' : Nat → Next → β → Prop} {R : Nat → α → Prop} {span : Span}

theorem read {f : α → Compiler β} (first : Builds K d k m c (Kept m R))
    (second : ∀ k' a, k' ≤ k → R k' a → Builds K d k' m (f a) Q') : Builds K d k m (c >>= f) Q' := by
  refine first.bind ?_
  rintro k' _ a le ⟨rfl, h⟩
  exact second k' a le h

theorem keep {a : α} (h : R k a) : Builds K d k m (Pure.pure a) (Kept m R) := pure ⟨rfl, h⟩

theorem look {g : Context → State → α} {R : α → Prop} (h : ∀ ctx s, c ctx s = (some (g ctx s), s))
    (same : ∀ ctx s turns, g { ctx with turns := turns } s = g ctx s)
    (hr : ∀ ctx s, ctx.endSpan = K.stop → s.Ready K d k m → R (g ctx s)) :
    Builds K d k m c (Kept m fun k' a => k' = k ∧ R a) := by
  constructor
  · intro ctx s hend hs
    rw [h]
    exact ⟨k, m, Nat.le_refl k, hs, rfl, rfl, hr ctx s hend hs⟩
  · intro ctx s turns _ _ _ _
    rw [h, h, same]

theorem see {f : α → Compiler β} {R : α → Prop} (first : Builds K d k m c (Kept m fun k' a => k' = k ∧ R a))
    (second : ∀ a, R a → Builds K d k m (f a) Q') : Builds K d k m (c >>= f) Q' := by
  refine first.read ?_
  rintro _ a _ ⟨rfl, h⟩
  exact second a h

theorem get : Builds K d k m (get : Compiler State) (Kept m fun k' s => k' = k ∧ s.Ready K d k m) :=
  look (g := fun _ s => s) (fun _ _ => rfl) (fun _ _ _ => rfl) fun _ _ _ hs => hs

theorem mem_rest {s : State} {t : Token} (hs : s.Ready K d k m) (ht : t ∈ s.rest.head?) : K.span t.span ∧ 0 < k := by
  have mem := List.mem_of_head? ht
  exact ⟨hs.spans t mem, hs.tokens ▸ List.length_pos_of_mem mem⟩

theorem here : Builds K d k m here (Kept m fun k' span => k' = k ∧ K.Reports span) := by
  refine look (fun _ _ => rfl) (fun _ _ _ => rfl) fun ctx s hend hs => ?_
  cases ht : s.rest.head? with
  | none => exact .inr hend
  | some t => exact .inl (mem_rest hs ht).1

theorem peek? : Builds K d k m peek? (Kept m fun k' t? => k' = k ∧ ∀ t ∈ t?, K.span t.span ∧ 0 < k) :=
  look (fun _ _ => rfl) (fun _ _ _ => rfl) fun _ _ _ hs _ ht => mem_rest hs ht

theorem peekSecond? : Builds K d k m peekSecond? (Kept m fun k' _ => k' = k ∧ True) :=
  look (fun _ _ => rfl) (fun _ _ _ => rfl) fun _ _ _ _ => trivial

theorem atOp (op : Operator) : Builds K d k m (atOp op) (Kept m fun k' yes => k' = k ∧ (yes = true → 0 < k)) := by
  refine look (fun _ _ => rfl) (fun _ _ _ => rfl) fun _ s _ hs yes => ?_
  cases ht : s.rest.head? with
  | none =>
    rw [ht] at yes
    cases yes
  | some t => exact (mem_rest hs ht).2

theorem atDeclaration : Builds K d k m atDeclaration (Kept m fun k' _ => k' = k ∧ True) :=
  look (fun _ _ => rfl) (fun _ _ _ => rfl) fun _ _ _ _ => trivial

theorem advance? : Builds K d k m advance? (Kept m fun k' t? => k' = k - 1 ∧ ∀ t ∈ t?, K.span t.span ∧ 0 < k) := by
  refine ⟨fun {ctx s} _ hs => ⟨k - 1, m, Nat.sub_le k 1, ?_, rfl, rfl, fun _ => mem_rest hs⟩, fun _ _ _ _ => rfl⟩
  exact { hs with
    tokens := by rw [List.length_tail, hs.tokens]
    spans := fun t ht => hs.spans t (List.mem_of_mem_tail ht) }

theorem skip {f : Option Token → Compiler β}
    (h : ∀ t?, (∀ t ∈ t?, K.span t.span ∧ 0 < k) → Builds K d (k - 1) m (f t?) Q') :
    Builds K d k m (Compiler.advance? >>= f) Q' := by
  refine advance?.read ?_
  rintro _ t? _ ⟨rfl, ht⟩
  exact h t? ht

theorem eatIf (p : Token → Bool) : Builds K d k m (eatIf p)
    (Kept m fun k' t? => (∀ t ∈ t?, K.span t.span) ∧ (t?.isSome = true → k' < k)) := by
  refine get.see fun s _ => .ite (fun _ => advance?.imp ?_) fun _ => keep ⟨nofun, nofun⟩
  rintro k' m' t? _ ⟨rfl, rfl, ht⟩
  refine ⟨rfl, fun t h => (ht t h).1, fun some => ?_⟩
  obtain ⟨t, rfl⟩ := Option.isSome_iff_exists.1 some
  have := (ht t rfl).2
  omega

theorem missing (cause : CompileError.Cause) : Builds K d k m (missing cause) Q :=
  get.see fun _ _ => here.see fun _ hspan => .failAt _ hspan

theorem expect (p : Token → Bool) (cause : CompileError.Cause) :
    Builds K d k m (expect p cause) (Kept m fun k' t => K.span t.span ∧ k' < k) := by
  refine (eatIf p).read fun k' t? le ⟨spans, fewer⟩ => ?_
  cases t? with
  | none => exact missing cause
  | some t => exact keep ⟨spans t rfl, fewer rfl⟩

/-- What each turn of a loop keeps, and what the last one answers. A turn that is not the last one reads a token. -/
def Turn (K : Setting) (d k : Nat) (step : σ → Compiler (σ ⊕ α)) (I : Nat → Next → σ → Prop)
    (Q : Nat → Next → α → Prop) : Prop :=
  ∀ k' m' st, k' ≤ k → I k' m' st → Builds K d k' m' (step st) fun k'' m'' r => match r with
    | .inl st => k'' < k' ∧ I k'' m'' st
    | .inr a => Q k'' m'' a

section Iterate

variable {step : σ → Compiler (σ ⊕ α)} {I : Nat → Next → σ → Prop} {turns turns' n k' : Nat} {m' : Next} {st : σ}
  {ctx : Context} {s : State}

theorem ends_iterate (hs : Turn K d k step I Q) (hend : ctx.endSpan = K.stop) (le : k' ≤ k) (h : I k' m' st)
    (ready : s.Ready K d k' m') : Ends K d k Q (Compiler.iterate step turns st ctx s) := by
  induction turns generalizing k' m' st s with
  | zero =>
    have cut : Builds K d k' m' (Compiler.fail .unexpectedEnd ctx.endSpan) Q := .failAt _ (.inr hend)
    exact cut.ends hend ready
  | succ turns ih =>
    have ends := (hs k' m' st le h).ends hend ready
    unfold Compiler.iterate
    rw [bind_apply]
    generalize step st ctx s = r at ends
    obtain ⟨_ | ⟨st' | a⟩, s'⟩ := r
    · exact ends
    · obtain ⟨k'', m'', _, ready', fewer, h'⟩ := ends
      exact ih (by omega) h' ready'
    · obtain ⟨k'', m'', le', ready', q⟩ := ends
      exact ⟨k'', m'', Nat.le_trans le' le, ready', q⟩

/-- No loop is cut short that has more turns than there are tokens. -/
theorem iterate_steady (hs : Turn K d k step I Q) (hend : ctx.endSpan = K.stop) (hk : k' < ctx.turns) (hn : k' < n)
    (ht : k' < turns) (ht' : k' < turns') (le : k' ≤ k) (h : I k' m' st) (ready : s.Ready K d k' m') :
    Compiler.iterate step turns' st { ctx with turns := n } s = Compiler.iterate step turns st ctx s := by
  induction turns generalizing turns' k' m' st s with
  | zero => exact absurd ht (Nat.not_lt_zero _)
  | succ turns ih =>
    obtain ⟨turns', rfl⟩ := Nat.exists_eq_succ_of_ne_zero (Nat.ne_of_gt (Nat.zero_lt_of_lt ht'))
    have made := hs k' m' st le h
    have ends := made.ends hend ready
    unfold Compiler.iterate
    rw [bind_apply, bind_apply, made.steady hend hk hn ready]
    generalize step st ctx s = r at ends
    obtain ⟨_ | ⟨st' | a⟩, s'⟩ := r
    · rfl
    · obtain ⟨k'', m'', _, ready', fewer, h'⟩ := ends
      apply ih _ _ _ _ _ h' ready' <;> omega
    · rfl

end Iterate

theorem loop {start : σ} {step : σ → Compiler (σ ⊕ α)} (I : Nat → Next → σ → Prop) (h : I k m start)
    (hs : Turn K d k step I Q) : Builds K d k m (loop start step) Q := by
  constructor
  · intro ctx s hend ready
    exact ends_iterate hs hend (Nat.le_refl k) h ready
  · intro ctx s turns hend hk ht ready
    exact iterate_steady hs hend hk ht hk ht (Nat.le_refl k) h ready

theorem commaList {item : Compiler α} (J : Next → List α → Prop) (h : J m [])
    (hs : ∀ k' m' as, k' ≤ k → J m' as → Builds K d k' m' item fun _ m'' a => J m'' (a :: as)) :
    Builds K d k m (commaList item) fun _ m' as => J m' as.reverse := by
  refine loop (fun _ m' as => J m' as) h fun k' m' as le hj => (hs k' m' as le hj).bind fun k₁ m₁ a le₁ hj₁ => ?_
  refine (eatIf _).read fun k₂ comma? _ ⟨_, fewer⟩ => .ite (fun some => pure ⟨?_, hj₁⟩) fun _ => pure ?_
  · have := fewer some
    omega
  · change J m₁ (a :: as).reverse.reverse
    rwa [List.reverse_reverse]

theorem inFrame (isBlock : Bool) (h : Builds K (d + 1) k m c Q) : Builds K d k m (inFrame isBlock c) Q := by
  have inside {s : State} (hs : s.Ready K d k m) :
      Compile.State.Ready K (d + 1) k m { s with scopes := s.scopes.push isBlock } := { hs with
    depth := congrArg Nat.succ hs.depth
    vars := List.forall_mem_cons.2 ⟨nofun, hs.vars⟩ }
  constructor
  · intro ctx s hend hs
    have ends := h.ends hend (inside hs)
    unfold Compiler.inFrame
    generalize c ctx { s with scopes := s.scopes.push isBlock } = r at ends
    obtain ⟨_ | a, s'⟩ := r
    · exact ends
    · obtain ⟨k', m', le, ready, q⟩ := ends
      refine ⟨k', m', le, ?_, q⟩
      exact { ready with
        depth := by
          change s'.scopes.frames.tail.length = d
          rw [List.length_tail, ready.depth]
          rfl
        vars := fun f hf => ready.vars f (List.mem_of_mem_tail hf) }
  · intro ctx s turns hend hk ht hs
    unfold Compiler.inFrame
    rw [h.steady hend hk ht (inside hs)]

theorem node (span : Span) (form : Form Instr) : Builds K d k m (node span form) fun k' m' i =>
    k' = k ∧ m' = ⟨m.node + 1, m.var⟩ ∧ i = .mk m.node span form := by
  refine ⟨fun {ctx s} _ hs => ⟨k, ⟨m.node + 1, m.var⟩, Nat.le_refl k, ?_, rfl, rfl, ?_⟩, fun _ _ _ _ => rfl⟩
  · exact { hs with node := congrArg Nat.succ hs.node }
  · rw [hs.node]

theorem baseType (allowVoid : Bool) {token : Token} (hspan : K.span token.span) :
    Builds K d k m (baseType allowVoid token) (Kept m fun k' _ => k' = k ∧ True) := by
  have known (ty : Ty) : Builds K d k m (Pure.pure ty) (Kept m fun k' _ => k' = k ∧ True) := keep ⟨rfl, trivial⟩
  unfold Compiler.baseType
  split
  · exact .ite (fun _ => known _) fun _ => .fail _ hspan
  · exact known _
  · exact known _
  · exact known _
  · exact known _
  · exact .ask (fun _ _ => rfl) fun _ _ => .ite (fun _ => known _) fun _ => .fail _ hspan
  · exact .fail _ hspan

theorem arrayOf (ty : Ty) (hspan : K.Reports span) :
    Builds K d k m (arrayOf ty span) (Kept m fun k' _ => k' = k ∧ True) :=
  .ite (fun _ => .failAt _ hspan) fun _ => keep ⟨rfl, trivial⟩

theorem typeName (allowVoid : Bool) :
    Builds K d k m (typeName allowVoid) (Kept m fun k' r => K.span r.1 ∧ k' < k) := by
  refine peek?.see fun token? ht => ?_
  split
  case h_1 => exact .ask (fun _ _ => rfl) fun _ hend => .failAt _ (.inr hend)
  case h_2 token =>
    obtain ⟨hspan, more⟩ := ht token rfl
    refine (baseType allowVoid hspan).see fun base _ => skip fun _ _ => ?_
    refine Builds.read (R := fun _ _ => True) (loop (fun _ m' _ => m' = m) rfl ?_) fun k' ty le _ => keep ⟨hspan, by omega⟩
    rintro k' _ ty le rfl
    refine (atOp _).see fun open? some => peekSecond?.see fun second? _ => .ite (fun brackets => ?_) fun _ => pure ⟨rfl, trivial⟩
    have more := some (Bool.and_eq_true_iff.1 brackets).1
    refine .ite (fun _ => .fail _ hspan) fun _ => here.see fun opening hopen => skip fun _ _ => skip fun _ _ => ?_
    exact (arrayOf ty hopen).see fun _ _ => pure ⟨by omega, rfl⟩

end Builds
end Tickwise
