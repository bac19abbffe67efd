import Tickwise.Proofs.Compile.ReadExpressions
import Tickwise.Proofs.Compile.Statements
import Tickwise.Proofs.Sight.Instructions
set_option autoImplicit false

/-!
# Statements access variables in sight

A routine is followed with the variables in sight: those declared in the frames that are open. What it answers
accesses none but those, and behind it the variables are in sight that it declared, too.
-/
namespace Tickwise

open Compile Compiler

/-- A state without an error, where none but these variables are declared in open frames. -/
structure Compile.State.Shows (V : List VarId) (s : State) : Prop where
  fine : s.scopes.error = none
  vars : ∀ f ∈ s.scopes.frames, ∀ v ∈ f.vars, v.id ∈ V

/-- From a state with these variables in sight, the answers of a routine satisfy `P` with the variables in sight
behind it. Frames further out than the innermost one are left alone. -/
structure Sights {α : Type} (V : List VarId) (ctx : Context) (s : State) (c : Compiler α)
    (P : List VarId → α → Prop) : Prop where
  answers : ∀ {a s'}, s.Shows V → c ctx s = (some a, s') →
    ∃ V', s'.Shows V' ∧ s'.scopes.frames.tail = s.scopes.frames.tail ∧ P V' a

namespace Instr

/-- An instruction that accesses variables of `V`, with `V'` in sight behind it. -/
structure Seen (V V' : List VarId) (i : Instr) : Prop where
  sees : i.Sees V
  sight : V' = V ++ i.declares

/-- An instruction that accesses variables of `V` and leaves none declared. -/
structure Settled (V V' : List VarId) (i : Instr) : Prop where
  sees : i.Sees V
  bare : i.declares = []
  sight : V' = V

/-- Instructions of a list that access variables in sight in turn, from `V` to `V'`. -/
structure Passed (V V' : List VarId) (items : List Instr) : Prop where
  inTurn : InTurn V items
  sight : V' = V ++ items.flatMap declares

variable {V V' V'' : List VarId} {i : Instr} {items : List Instr}

theorem Settled.seen (h : i.Settled V V') : i.Seen V V' := by
  refine ⟨h.sees, ?_⟩
  rw [h.bare, List.append_nil, h.sight]

theorem Passed.nil : Passed V V [] := ⟨.nil, (List.append_nil V).symm⟩

theorem Passed.snoc (h : Passed V V' items) (hi : i.Seen V' V'') : Passed V V'' (items ++ [i]) := by
  obtain ⟨inTurn, rfl⟩ := h
  refine ⟨inTurn.snoc hi.sees, ?_⟩
  rw [hi.sight, List.flatMap_append, List.flatMap_singleton, List.append_assoc]

theorem Passed.of_settled (h : ∀ i ∈ items, i.Sees V ∧ i.declares = []) : Passed V V items := by
  refine ⟨fun k i hk => ?_, ?_⟩
  · exact (h i (List.mem_of_getElem? hk)).1.mono (List.subset_append_left _ _)
  · rw [List.flatMap_eq_nil_iff.2 fun i hi => (h i hi).2, List.append_nil]

/-- Of a tree without declarations nothing is declared behind it. -/
theorem declares_eq_nil (h : ∀ j ∈ i.all, j.declared? = none) : i.declares = [] := by
  have own := h i (mem_all_self i)
  obtain ⟨id, span, form⟩ := i
  cases form with
  | declare => cases own
  | declList items =>
    exact List.filterMap_eq_nil_iff.2 fun c hc => h c (mem_all_of_part hc (mem_all_self c))
  | _ => rfl

end Instr

namespace Sights

variable {α β σ : Type} {V : List VarId} {ctx : Context} {s : State} {c : Compiler α} {P : List VarId → α → Prop}
  {Q : List VarId → β → Prop}

theorem pure {a : α} (h : P V a) : Sights V ctx s (pure a) P := by
  refine ⟨fun hs hc => ?_⟩
  cases hc
  exact ⟨V, hs, rfl, h⟩

theorem fail (cause : CompileError.Cause) (span : Span) : Sights V ctx s (fail cause span) P :=
  ⟨fun _ hc => by cases hc⟩

theorem imp {P' : List VarId → α → Prop} (h : Sights V ctx s c P) (hP : ∀ V' a, P V' a → P' V' a) :
    Sights V ctx s c P' := by
  refine ⟨fun hs hc => ?_⟩
  obtain ⟨V', hs', same, ha⟩ := h.answers hs hc
  exact ⟨V', hs', same, hP V' _ ha⟩

theorem bind {f : α → Compiler β} (first : Sights V ctx s c P)
    (second : ∀ s' V' a, P V' a → Sights V' ctx s' (f a) Q) : Sights V ctx s (c >>= f) Q := by
  refine ⟨fun hs hc => ?_⟩
  obtain ⟨a, s₁, hc, hf⟩ := some_of_bind hc
  obtain ⟨V₁, hs₁, same, ha⟩ := first.answers hs hc
  obtain ⟨V₂, hs₂, same', hb⟩ := (second s₁ V₁ a ha).answers hs₁ hf
  exact ⟨V₂, hs₂, same'.trans same, hb⟩

theorem map {f : α → β} (h : Sights V ctx s c fun V' a => Q V' (f a)) : Sights V ctx s (f <$> c) Q :=
  h.bind fun _ _ _ => pure

theorem pureBind {f : α → Compiler β} {a : α} (h : Sights V ctx s (f a) Q) :
    Sights V ctx s (Pure.pure a >>= f) Q := h

theorem failBind (cause : CompileError.Cause) (span : Span) (f : α → Compiler β) :
    Sights V ctx s (Compiler.fail cause span >>= f) Q :=
  (fail (P := fun _ _ => False) cause span).bind fun _ _ _ h => h.elim

theorem ite {q : Prop} [Decidable q] {d : Compiler α} (hc : q → Sights V ctx s c P) (hd : ¬ q → Sights V ctx s d P) :
    Sights V ctx s (if q then c else d) P := by
  split
  case isTrue h => exact hc h
  case isFalse h => exact hd h

theorem read {f : α → Compiler β} (h : Reads c) (second : ∀ s' a, Sights V ctx s' (f a) Q) :
    Sights V ctx s (c >>= f) Q := by
  refine ⟨fun hs hc => ?_⟩
  obtain ⟨a, s₁, hc, hf⟩ := some_of_bind hc
  have same := h.scopes hc
  obtain ⟨V', hs', tail, hb⟩ := (second s₁ a).answers ⟨same ▸ hs.fine, same ▸ hs.vars⟩ hf
  exact ⟨V', hs', same ▸ tail, hb⟩

theorem look {f : α → Compiler β} {a : α} (h : c ctx s = (some a, s)) (second : Sights V ctx s (f a) Q) :
    Sights V ctx s (c >>= f) Q := by
  refine ⟨fun hs hc => ?_⟩
  rw [bind_apply, h] at hc
  exact second.answers hs hc

theorem missing (cause : CompileError.Cause) : Sights V ctx s (missing cause) P :=
  .read .get fun _ _ => .read .here fun _ _ => .fail _ _

theorem withReader {f : Context → Context} (h : Sights V (f ctx) s c P) : Sights V ctx s (withReader f c) P :=
  ⟨h.answers⟩

theorem iterate {step : σ → Compiler (σ ⊕ α)} {I : List VarId → σ → Prop}
    (hs : ∀ s' V' st, I V' st → Sights V' ctx s' (step st) fun V'' r => match r with
      | .inl st => I V'' st
      | .inr a => P V'' a) (turns : Nat) {st : σ} (h : I V st) : Sights V ctx s (iterate step turns st) P := by
  induction turns generalizing V s st with
  | zero => exact .read .read fun _ _ => .fail _ _
  | succ turns ih =>
    refine (hs s V st h).bind fun s' V' r hr => ?_
    cases r with
    | inl st => exact ih hr
    | inr a => exact pure hr

theorem loop {start : σ} {step : σ → Compiler (σ ⊕ α)} (I : List VarId → σ → Prop) (h : I V start)
    (hs : ∀ s' V' st, I V' st → Sights V' ctx s' (step st) fun V'' r => match r with
      | .inl st => I V'' st
      | .inr a => P V'' a) : Sights V ctx s (loop start step) P :=
  .read .read fun _ context => iterate hs context.turns h

theorem commaList (I : List VarId → List α → Prop) (h : I V [])
    (item : ∀ s' V' as, I V' as → Sights V' ctx s' c fun V'' a => I V'' (a :: as)) :
    Sights V ctx s (commaList c) fun V' as => I V' as.reverse := by
  refine loop I h fun s' V' as has => (item s' V' as has).bind fun s'' V'' a ha => ?_
  refine .read (.eatIf _) fun _ comma? => .ite (fun _ => pure ha) fun _ => pure ?_
  change I V'' (a :: as).reverse.reverse
  rwa [List.reverse_reverse]

theorem inFrame {P : α → Prop} (isBlock : Bool) (h : ∀ s', Sights V ctx s' c fun _ a => P a) :
    Sights V ctx s (inFrame isBlock c) fun V' a => V' = V ∧ P a := by
  refine ⟨fun {a s'} hs hc => ?_⟩
  unfold Compiler.inFrame at hc
  have inside : Compile.State.Shows V { s with scopes := s.scopes.push isBlock } :=
    ⟨hs.fine, List.forall_mem_cons.2 ⟨nofun, hs.vars⟩⟩
  have answers {b : α} {s₁ : State} (hc : c ctx { s with scopes := s.scopes.push isBlock } = (some b, s₁)) :=
    (h _).answers inside hc
  generalize c ctx { s with scopes := s.scopes.push isBlock } = r at hc answers
  obtain ⟨_ | b, s₁⟩ := r
  · cases hc
  · cases hc
    obtain ⟨V', shows, same, ha⟩ := answers rfl
    have frames : s₁.scopes.pop.frames = s.scopes.frames := same
    refine ⟨V, ⟨shows.fine, ?_⟩, ?_, rfl, ha⟩
    · change ∀ f ∈ s₁.scopes.pop.frames, _
      rw [frames]
      exact hs.vars
    · change s₁.scopes.pop.frames.tail = _
      rw [frames]

theorem node {Q : List VarId → Instr → Prop} {span : Span} {form : Form Instr} (h : ∀ n, Q V (.mk n span form)) :
    Sights V ctx s (node span form) Q := by
  refine ⟨fun hs hc => ?_⟩
  cases hc
  exact ⟨V, ⟨hs.fine, hs.vars⟩, rfl, h _⟩

/-- Instructions that are built without a declaration, by a routine that only reads, access variables in sight. -/
theorem formed (instrs : α → List Instr) (reads : Reads c)
    (built : ∀ K d k m, Builds K d k m c fun _ m' a => Formed K m m' (instrs a)) :
    Sights V ctx s c fun V' a =>
      V' = V ∧ ∀ i ∈ instrs a, (∀ place ∈ i.place?, place.root ∈ V) ∧ i.declared? = none := by
  refine ⟨fun {a s'} hs hc => ?_⟩
  let K : Setting := ⟨⟨fun _ => True, ctx.endSpan⟩, s.scopes.nextVar, (· ∈ V), (· ∈ s.scopes.functions)⟩
  have ready : s.Ready K s.scopes.frames.length s.rest.length ⟨s.nextNode, s.scopes.nextVar⟩ :=
    ⟨rfl, fun _ _ => trivial, rfl, rfl, hs.fine, rfl, Nat.le_refl _, fun f hf v hv => .inl (hs.vars f hf v hv),
      fun _ hf => hf⟩
  have ends := (built K _ _ _).ends rfl ready
  rw [hc] at ends
  obtain ⟨_, m', _, _, formed⟩ := ends
  have same := reads.scopes hc
  refine ⟨V, ⟨same ▸ hs.fine, same ▸ hs.vars⟩, same ▸ rfl, rfl, fun i hi => ⟨fun place hp => ?_, ?_⟩⟩
  · -- No variable was numbered meanwhile, so the one that is accessed is from outside.
    have root : K.Declares m' place.root := by
      have regular := (formed.regular i hi).2
      obtain ⟨id, span, form⟩ := i
      cases form with
      | load | store | step =>
        cases hp
        exact regular
      | _ => cases hp
    refine root.resolve_right fun ⟨above, below⟩ => ?_
    rw [formed.same] at below
    exact absurd below (Nat.not_lt.2 above)
  · refine Option.eq_none_iff_forall_ne_some.2 fun x declared => ?_
    have range := formed.vars.range x (List.mem_filterMap.2 ⟨i, hi, declared⟩)
    rw [formed.same] at range
    omega

end Sights

/-- The routines of a level answer instructions that access variables in sight. -/
structure Level.Sighted (lv : Level) : Prop where
  built : ∀ K, lv.Built K
  reads : lv.Reading
  statement : ∀ V ctx s, Sights V ctx s lv.statement fun V' i =>
    i.Seen V V' ∧ (ctx.startsDeclaration s.rest = false → i.declares = [])

namespace Sights

open Instr

variable {V : List VarId} {ctx : Context} {s : State} {lv : Level} {span : Span}

/-- An instruction that is built without a declaration. -/
theorem settled {c : Compiler Instr} (reads : Reads c)
    (built : ∀ K d k m, Builds K d k m c fun _ m' i => Formed K m m' i.all) :
    Sights V ctx s c fun V' i => i.Settled V V' := by
  refine (formed Instr.all reads built).imp ?_
  rintro _ i ⟨rfl, each⟩
  exact ⟨.of_all fun j hj => (each j hj).1, declares_eq_nil fun j hj => (each j hj).2, rfl⟩

/-- Instructions that are built without a declaration. -/
theorem settledAll {c : Compiler (List Instr)} (reads : Reads c)
    (built : ∀ K d k m, Builds K d k m c fun _ m' is => Formed K m m' (is.flatMap Instr.all)) :
    Sights V ctx s c fun V' is => V' = V ∧ ∀ i ∈ is, i.Sees V ∧ i.declares = [] := by
  refine (formed (·.flatMap Instr.all) reads built).imp ?_
  rintro _ is ⟨rfl, each⟩
  refine ⟨rfl, fun i hi => ?_⟩
  have each (j : Instr) (hj : j ∈ i.all) := each j (List.mem_flatMap.2 ⟨i, hi, hj⟩)
  exact ⟨.of_all fun j hj => (each j hj).1, declares_eq_nil fun j hj => (each j hj).2⟩

theorem plain {form : Form Instr} (bare : ∀ n, (Instr.mk n span form).declares = [])
    (sees : ∀ n, (Instr.mk n span form).Sees V) :
    Sights V ctx s (Compiler.node span form) fun V' i => i.Settled V V' :=
  .node fun n => ⟨sees n, bare n, rfl⟩

theorem condition (hlv : lv.Sighted) : Sights V ctx s (condition lv) fun V' i => i.Settled V V' :=
  settled (.condition hlv.reads) fun K _ _ _ => .condition (hlv.built K)

theorem integer (hlv : lv.Sighted) (cause : CompileError.Cause) :
    Sights V ctx s (integer lv cause) fun V' i => i.Settled V V' :=
  settled (.integer hlv.reads cause) fun K _ _ _ => .integer (hlv.built K) cause

theorem parenCondition (hlv : lv.Sighted) : Sights V ctx s (parenCondition lv) fun V' i => i.Settled V V' :=
  settled (.parenCondition hlv.reads) fun K _ _ _ => .parenCondition (hlv.built K)

theorem operand {c : Compiler Operand} (reads : Reads c) (built : ∀ K d k m, Builds K d k m c (Operand.Formed K m)) :
    Sights V ctx s c fun V' e => e.instr.Settled V V' := by
  have built (K : Setting) (d k : Nat) (m : Next) : Builds K d k m c fun _ m' e => Formed K m m' e.instr.all :=
    built K d k m
  refine (formed (·.instr.all) reads built).imp ?_
  rintro _ e ⟨rfl, each⟩
  exact ⟨.of_all fun j hj => (each j hj).1, declares_eq_nil fun j hj => (each j hj).2, rfl⟩

theorem expression (hlv : lv.Sighted) : Sights V ctx s lv.expression fun V' e => e.instr.Settled V V' :=
  operand hlv.reads.expression fun K => (hlv.built K).expression

theorem value (hlv : lv.Sighted) : Sights V ctx s (value lv) fun V' e => e.instr.Settled V V' :=
  operand (.value hlv.reads) fun K _ _ _ => .value (hlv.built K)

theorem coerce {V' : List VarId} {e : Operand} (he : e.instr.Settled V V') (target : Ty) (span : Span) :
    Sights V' ctx s (coerce e target span) fun V'' i => i.Settled V V'' := by
  obtain ⟨sees, bare, rfl⟩ := he
  refine .read (.nonVoid e) fun _ _ => .ite (fun _ => ?_) fun _ => .fail _ _
  refine .ite (fun _ => ?_) fun _ => .pure ⟨sees, bare, rfl⟩
  exact plain (fun _ => rfl) fun _ => .of_parts nofun (List.forall_mem_singleton.2 sees)

theorem expressionList (hlv : lv.Sighted) (stop : Operator) :
    Sights V ctx s (expressionList lv stop) fun V' is => V' = V ∧ ∀ i ∈ is, i.Sees V ∧ i.declares = [] :=
  settledAll (.expressionList hlv.reads stop) fun K _ _ _ => .expressionList (hlv.built K) stop

theorem statementsToBrace (hlv : lv.Sighted) :
    Sights V ctx s (statementsToBrace lv) fun V' is => Passed V V' is := by
  refine loop (fun V' latestFirst => Passed V V' latestFirst.reverse) .nil fun s' V' latestFirst h => ?_
  refine .read (.eatIf _) fun _ closing => .ite (fun _ => .pure h) fun _ => .read .peek? fun s'' token? => ?_
  refine .ite (fun _ => ?_) fun _ => ?_
  · exact .read .read fun _ _ => .fail _ _
  · refine (hlv.statement V' ctx s'').bind fun _ V'' i ⟨hi, _⟩ => .pure ?_
    change Passed V V'' (i :: latestFirst).reverse
    rw [List.reverse_cons]
    exact h.snoc hi

theorem block (hlv : lv.Sighted) : Sights V ctx s (block lv true) fun V' i => i.Settled V V' := by
  refine .read (.expect _ _) fun _ opening => ?_
  refine (inFrame (P := fun is => InTurn V is) true fun s' => ?_).bind ?_
  · exact (statementsToBrace hlv).imp fun _ _ h => h.inTurn
  rintro _ _ body ⟨rfl, inTurn⟩
  exact plain (fun _ => rfl) fun _ => inTurn.block

theorem functionBlock (hlv : lv.Sighted) : Sights V ctx s (Compiler.block lv false) fun _ i => i.Sees V :=
  .read (.expect _ _) fun _ _ => (statementsToBrace hlv).bind fun _ _ _ h => .node fun _ => h.inTurn.block

theorem declareVar (name : String) (span : Span) (ty : Ty) :
    Sights V ctx s (declareVar name span ty) fun V' id => V' = V ++ [id] := by
  refine ⟨fun {id s'} hs hc => ?_⟩
  obtain ⟨_, s₁, fresh, declared⟩ := some_of_bind hc
  cases fresh
  obtain ⟨scopes, answer, rfl⟩ := some_of_onScopes? declared
  dsimp only at answer
  unfold ScopeStack.declare at answer
  split at answer
  · cases answer
  · split at answer
    · cases answer
    · rename_i f fs frames
      cases answer
      have vars := hs.vars
      change s.scopes.frames = f :: fs at frames
      rw [frames] at vars
      obtain ⟨first, rest⟩ := List.forall_mem_cons.1 vars
      have kept {x : VarId} (hx : x ∈ V) : x ∈ V ++ [s.scopes.nextVar] := List.mem_append_left _ hx
      refine ⟨_, ⟨hs.fine, ?_⟩, ?_, rfl⟩
      · refine List.forall_mem_cons.2
          ⟨List.forall_mem_cons.2 ⟨?_, fun v hv => kept (first v hv)⟩, fun f hf v hv => ?_⟩
        · exact List.mem_append_right _ List.mem_cons_self
        · exact kept (rest f hf v hv)
      · rw [frames]
        rfl

theorem declarationItem (hlv : lv.Sighted) (base : Ty) :
    Sights V ctx s (declarationItem lv base) fun V' i => i.Seen V V' ∧ i.declares = i.declared?.toList := by
  refine .read .expectIdent fun _ name => ?_
  refine (formed (·.2.flatMap Instr.all) (.dimensions hlv.reads base) ?_).bind ?_
  · exact fun K _ _ _ => .dimensions (hlv.built K) base
  rintro _ _ ⟨ty, sizes⟩ ⟨rfl, sized⟩
  refine (formed (·.toList.flatMap Instr.all) (.initializer hlv.reads ty) ?_).bind ?_
  · exact fun K _ _ _ => .initializer (hlv.built K) ty
  rintro _ V init ⟨rfl, begun⟩
  refine (declareVar name.text name.span ty).bind ?_
  rintro _ _ id rfl
  refine .node fun n => ⟨⟨.of_parts nofun fun c hc => .of_all fun j hj => ?_, rfl⟩, rfl⟩
  rcases List.mem_append.1 hc with hc | hc
  · exact (sized j (List.mem_flatMap.2 ⟨c, hc, hj⟩)).1
  · exact (begun j (List.mem_flatMap.2 ⟨c, hc, hj⟩)).1

theorem declaration (hlv : lv.Sighted) : Sights V ctx s (declaration lv) fun V' i => i.Seen V V' := by
  refine .read (.typeName false) fun _ (span, base) => ?_
  let items (V' : List VarId) (latestFirst : List Instr) : Prop :=
    Passed V V' latestFirst.reverse ∧ ∀ i ∈ latestFirst, i.declares = i.declared?.toList
  refine (commaList items ⟨.nil, nofun⟩ fun s' V' latestFirst h => ?_).bind fun _ V' is h => .node fun n => ?_
  · refine (declarationItem hlv base).imp fun V'' i ⟨hi, single⟩ => ⟨?_, List.forall_mem_cons.2 ⟨single, h.2⟩⟩
    rw [List.reverse_cons]
    exact h.1.snoc hi
  · obtain ⟨passed, single⟩ := h
    rw [List.reverse_reverse] at passed
    refine ⟨passed.inTurn.declList, ?_⟩
    have same : is.filterMap declared? = is.flatMap declares := by
      rw [List.filterMap_eq_flatMap_toList]
      exact List.flatMap_congr fun i hi => (single i (List.mem_reverse.2 hi)).symm
    change V' = V ++ is.filterMap declared?
    rw [same]
    exact passed.sight

theorem governed (hlv : lv.Sighted) : Sights V ctx s (governed lv) fun V' i => i.Settled V V' := by
  refine .look (a := ctx.startsDeclaration s.rest) rfl ?_
  refine .ite (fun _ => .read .here fun _ _ => .fail _ _) fun other => ?_
  refine (hlv.statement V ctx s).imp fun V' i ⟨seen, bare⟩ => ?_
  have bare := bare (Bool.eq_false_iff.2 other)
  refine ⟨seen.sees, bare, ?_⟩
  rw [seen.sight, bare, List.append_nil]

theorem loopBody (hlv : lv.Sighted) (label : Option String) :
    Sights V ctx s (loopBody lv label) fun V' i => i.Settled V V' :=
  .withReader (governed hlv)

theorem ifStatement (hlv : lv.Sighted) (span : Span) :
    Sights V ctx s (ifStatement lv span) fun V' i => i.Settled V V' := by
  refine (parenCondition hlv).bind ?_
  rintro _ _ cond ⟨hc, _, rfl⟩
  refine (governed hlv).bind ?_
  rintro _ V yes ⟨hy, _, rfl⟩
  refine .read (.eatIf _) fun s' word? => ?_
  have made {s' : State} {no : Option Instr} (hn : ∀ i ∈ no, i.Sees V) :
      Sights V ctx s' (Compiler.node span (.branch cond yes no)) fun V' i => i.Settled V V' :=
    plain (fun _ => rfl) fun _ => .of_parts nofun (List.forall_mem_cons.2 ⟨hc, List.forall_mem_cons.2 ⟨hy,
      fun i hi => hn i (Option.mem_toList.1 hi)⟩⟩)
  split
  · refine ((governed hlv).imp fun V' i h => ?_).map.bind
      (P := fun V' (no : Option Instr) => V' = V ∧ ∀ i ∈ no, i.Sees V) ?_
    · exact ⟨h.sight, fun i hi => Option.mem_some.1 hi ▸ h.sees⟩
    · rintro _ _ no ⟨rfl, hn⟩
      exact made hn
  · exact .pureBind (made nofun)

theorem whileStatement (hlv : lv.Sighted) (label : Option String) (span : Span) :
    Sights V ctx s (whileStatement lv label span) fun V' i => i.Settled V V' := by
  refine (parenCondition hlv).bind ?_
  rintro _ _ cond ⟨hc, _, rfl⟩
  refine (loopBody hlv label).bind ?_
  rintro _ _ body ⟨hb, _, rfl⟩
  exact plain (fun _ => rfl) fun _ => .of_parts nofun (List.forall_mem_cons.2 ⟨hc, List.forall_mem_singleton.2 hb⟩)

theorem doStatement (hlv : lv.Sighted) (label : Option String) (span : Span) :
    Sights V ctx s (doStatement lv label span) fun V' i => i.Settled V V' := by
  refine (loopBody hlv label).bind ?_
  rintro _ _ body ⟨hb, _, rfl⟩
  refine .read (.expect _ _) fun _ _ => (parenCondition hlv).bind ?_
  rintro _ _ cond ⟨hc, _, rfl⟩
  refine .read (.expect _ _) fun _ _ => ?_
  exact plain (fun _ => rfl) fun _ => .of_parts nofun (List.forall_mem_cons.2 ⟨hb, List.forall_mem_singleton.2 hc⟩)

theorem forStatement (hlv : lv.Sighted) (label : Option String) (span : Span) :
    Sights V ctx s (forStatement lv label span) fun V' i => i.Settled V V' := by
  refine (inFrame (P := fun i => i.Sees V ∧ i.declares = []) true fun s' => ?_).imp fun V' i ⟨sight, sees, bare⟩ =>
    ⟨sees, bare, sight⟩
  have continued {s' : State} {V' : List VarId} {init : List Instr} (hi : Passed V V' init) :
      Sights V' ctx s' (do
        let _ ← expectOp .semicolon .semicolon
        let cond ← if ← atOp .semicolon then Pure.pure none else some <$> Compiler.condition lv
        let _ ← expectOp .semicolon .semicolon
        let next ← Compiler.expressionList lv .rightParen
        let _ ← expectOp .rightParen .closeParen
        let body ← Compiler.loopBody lv label
        Compiler.node span (.forLoop label init cond next body)) fun _ i => i.Sees V ∧ i.declares = [] := by
    have rest {s' : State} {cond : Option Instr} (hc : ∀ c ∈ cond, c.Sees V') : Sights V' ctx s' (do
        let _ ← expectOp .semicolon .semicolon
        let next ← Compiler.expressionList lv .rightParen
        let _ ← expectOp .rightParen .closeParen
        let body ← Compiler.loopBody lv label
        Compiler.node span (.forLoop label init cond next body)) fun _ i => i.Sees V ∧ i.declares = [] := by
      refine .read (.expect _ _) fun _ _ => (expressionList hlv _).bind ?_
      rintro _ _ next ⟨rfl, hn⟩
      refine .read (.expect _ _) fun _ _ => (loopBody hlv label).bind ?_
      rintro _ V' body ⟨hb, _, rfl⟩
      obtain ⟨inTurn, rfl⟩ := hi
      exact .node fun n => ⟨inTurn.forLoop hc (fun c hc => (hn c hc).1) hb, rfl⟩
    refine .read (.expect _ _) fun _ _ => .read (.atOp _) fun _ endless => ?_
    split
    · exact .pureBind (rest nofun)
    · refine ((condition hlv).imp fun V'' i h => ?_).map.bind
        (P := fun V'' (cond : Option Instr) => V'' = V' ∧ ∀ i ∈ cond, i.Sees V') ?_
      · exact ⟨h.sight, fun i hi => Option.mem_some.1 hi ▸ h.sees⟩
      · rintro _ _ cond ⟨rfl, hc⟩
        exact rest hc
  refine .read (.expect _ _) fun _ _ => .read ?_ fun _ declares => ?_
  · exact .bind .read fun _ => .bind .get fun _ => .pure _
  split
  · refine (declaration hlv).bind fun _ V' i hd => .pureBind (continued ?_)
    exact Passed.nil.snoc hd
  · refine (expressionList hlv _).bind ?_
    rintro _ _ init ⟨rfl, hi⟩
    exact continued (.of_settled hi)

theorem switchBody (hlv : lv.Sighted) : Sights V ctx s (switchBody lv) fun V' r => Passed V V' r.2 := by
  refine loop (fun V' r => Passed V V' r.2.reverse) .nil fun s' V' (cases, latestFirst) h => ?_
  refine .read (.eatIf _) fun _ closing => .ite (fun _ => .pure h) fun _ => .read (.eatIf _) fun _ caseWord? => ?_
  split
  · refine .read (.caseValue hlv.reads) fun _ value => .ite (fun _ => .fail _ _) fun _ => ?_
    exact .read (.expect _ _) fun _ _ => .pure h
  · refine .read (.eatIf _) fun _ defaultWord? => ?_
    split
    · exact .ite (fun _ => .fail _ _) fun _ => .read (.expect _ _) fun _ _ => .pure h
    · refine .read .peek? fun s'' token? => .ite (fun _ => .read .read fun _ _ => .fail _ _) fun _ => ?_
      refine (hlv.statement V' ctx s'').bind fun _ V'' i ⟨hi, _⟩ => .pure ?_
      change Passed V V'' (i :: latestFirst).reverse
      rw [List.reverse_cons]
      exact h.snoc hi

theorem switchStatement (hlv : lv.Sighted) (label : Option String) (span : Span) :
    Sights V ctx s (switchStatement lv label span) fun V' i => i.Settled V V' := by
  refine .read (.expect _ _) fun _ _ => (integer hlv _).bind ?_
  rintro _ V value ⟨hv, _, rfl⟩
  refine .read (.expect _ _) fun _ _ => .read (.expect _ _) fun _ _ => ?_
  refine (inFrame (P := fun r => InTurn V r.2) true fun s' => .withReader ?_).bind ?_
  · exact (switchBody hlv).imp fun _ _ h => h.inTurn
  · rintro _ _ ⟨cases, body⟩ ⟨rfl, inTurn⟩
    exact plain (fun _ => rfl) fun _ => inTurn.switch hv

theorem jump (isBreak : Bool) (span : Span) :
    Sights V ctx s (jump isBreak span) fun V' i => i.Settled V V' := by
  refine .read (.eatIf _) fun _ label => .read .read fun _ _ => ?_
  split
  · exact .fail _ _
  · exact .fail _ _
  · refine .ite (fun _ => .read (.expect _ _) fun _ _ => ?_) fun _ => .fail _ _
    cases isBreak <;> exact plain (fun _ => rfl) fun _ => .of_parts nofun nofun

theorem returnStatement (hlv : lv.Sighted) (span : Span) :
    Sights V ctx s (returnStatement lv span) fun V' i => i.Settled V V' := by
  refine .read .read fun _ _ => .read (.atOp _) fun _ bare => ?_
  have returned {s' : State} {result : Option Instr} (hr : ∀ i ∈ result, i.Sees V) : Sights V ctx s' (do
      let _ ← expectOp .semicolon .semicolon
      Compiler.node span (.ret result)) fun V' i => i.Settled V V' :=
    .read (.expect _ _) fun _ _ => plain (fun _ => rfl) fun _ =>
      .of_parts nofun fun i hi => hr i (Option.mem_toList.1 hi)
  split
  · split
    · exact .pureBind (returned nofun)
    · exact .failBind ..
  · split
    · exact .failBind ..
    · refine ((value hlv).bind fun _ V' e he => (coerce he _ span).imp fun V'' i h => ?_).map.bind
        (P := fun V' (result : Option Instr) => V' = V ∧ ∀ i ∈ result, i.Sees V) ?_
      · exact ⟨h.sight, fun i hi => Option.mem_some.1 hi ▸ h.sees⟩
      · rintro _ V result ⟨rfl, hr⟩
        exact returned hr

theorem catchClause (hlv : lv.Sighted) (span : Span) :
    Sights V ctx s (catchClause lv span) fun V' c => V' = V ∧ c.filter.Sees V ∧ c.handler.Sees V := by
  refine .read (.expect _ _) fun _ _ => (value hlv).bind ?_
  rintro _ _ filter ⟨hf, _, rfl⟩
  refine .ite (fun _ => .fail _ _) fun _ => .read (.expect _ _) fun _ _ => (block hlv).bind ?_
  rintro _ V handler ⟨hh, _, rfl⟩
  exact .pure ⟨rfl, hf, hh⟩

theorem tryStatement (hlv : lv.Sighted) (span : Span) :
    Sights V ctx s (tryStatement lv span) fun V' i => i.Settled V V' := by
  refine (block hlv).bind ?_
  rintro _ V body ⟨hb, _, rfl⟩
  let clauses (V' : List VarId) (cs : List (Catch Instr)) : Prop :=
    V' = V ∧ ∀ c ∈ cs, c.filter.Sees V ∧ c.handler.Sees V
  refine bind (.loop (P := clauses) clauses ⟨rfl, nofun⟩ ?read) ?_
  case read =>
    rintro _ V' latestFirst ⟨rfl, h⟩
    refine .read (.eatIf _) fun _ word? => ?_
    cases word? with
    | some word =>
      refine (catchClause hlv _).bind ?_
      rintro _ V c ⟨rfl, hc⟩
      exact .pure ⟨rfl, List.forall_mem_cons.2 ⟨hc, h⟩⟩
    | none => exact .pure ⟨rfl, fun c hc => h c (List.mem_reverse.1 hc)⟩
  · rintro _ V cs ⟨rfl, h⟩
    refine .ite (fun _ => .missing _) fun _ => plain (fun _ => rfl) fun _ => .of_parts nofun fun i hi => ?_
    rcases List.mem_cons.1 hi with rfl | hi
    · exact hb
    · obtain ⟨c, hc, hi⟩ := List.mem_flatMap.1 hi
      exact List.forall_mem_cons.2 ⟨(h c hc).1, List.forall_mem_singleton.2 (h c hc).2⟩ i hi

theorem throwStatement (hlv : lv.Sighted) (span : Span) :
    Sights V ctx s (throwStatement lv span) fun V' i => i.Settled V V' := by
  refine (integer hlv _).bind ?_
  rintro _ _ code ⟨hc, _, rfl⟩
  exact .read (.expect _ _) fun _ _ => plain (fun _ => rfl) fun _ => .of_parts nofun (List.forall_mem_singleton.2 hc)

theorem breakable? (hlv : lv.Sighted) {label : Option String} {token : Token} {c : Compiler Instr}
    (h : breakable? lv label token = some c) : Sights V ctx s c fun V' i => i.Settled V V' := by
  unfold Compiler.breakable? at h
  split at h
  · cases h
    exact whileStatement hlv _ _
  · cases h
    exact doStatement hlv _ _
  · cases h
    exact forStatement hlv _ _
  · cases h
    exact switchStatement hlv _ _
  · cases h

theorem wordStatement? (hlv : lv.Sighted) {token : Token} {c : Compiler Instr}
    (h : wordStatement? lv token = some c) : Sights V ctx s c fun V' i => i.Settled V V' := by
  unfold Compiler.wordStatement? at h
  split at h
  · cases h
    exact ifStatement hlv _
  · cases h
    exact jump _ _
  · cases h
    exact jump _ _
  · cases h
    exact returnStatement hlv _
  · cases h
    exact tryStatement hlv _
  · cases h
    exact throwStatement hlv _
  · exact breakable? hlv h

theorem labelled (hlv : lv.Sighted) (label : String) :
    Sights V ctx s (labelled lv label) fun V' i => i.Settled V V' := by
  refine .read .peek? fun _ token? => ?_
  split
  case h_1 c h =>
    obtain ⟨token, _, h⟩ := Option.bind_eq_some_iff.1 h
    exact .read .advance? fun _ _ => breakable? hlv h
  case h_2 => exact .read .here fun _ _ => .fail _ _

theorem statementBody (hlv : lv.Sighted) : Sights V ctx s (statementBody lv) fun V' i =>
    i.Seen V V' ∧ (ctx.startsDeclaration s.rest = false → i.declares = []) := by
  have closed {c : Compiler Instr} {s' : State} (h : Sights V ctx s' c fun V' i => i.Settled V V') :
      Sights V ctx s' c fun V' i => i.Seen V V' ∧ (ctx.startsDeclaration s.rest = false → i.declares = []) :=
    h.imp fun _ _ h => ⟨h.seen, fun _ => h.bare⟩
  refine .look (a := s.rest.head?) rfl ?_
  split
  case h_1 => exact .read .read fun _ _ => .fail _ _
  case h_2 token _ =>
    refine .ite (fun _ => closed (block hlv)) fun _ => .ite (fun _ => .read .advance? fun _ _ => ?_) fun _ => ?_
    · exact closed (plain (fun _ => rfl) fun _ => .of_parts nofun nofun)
    · split
      case h_1 c h => exact .read .advance? fun _ _ => closed (wordStatement? hlv h)
      case h_2 =>
        refine .look (a := s.rest[1]?) rfl (.ite (fun _ => ?_) fun _ => ?_)
        · exact .read .advance? fun _ _ => .read .advance? fun _ _ => closed (labelled hlv _)
        · refine .look (a := ctx.startsDeclaration s.rest) rfl ?_
          split
          case isTrue declares =>
            refine (declaration hlv).bind fun _ V' i hi => .read (.expect _ _) fun _ _ => ?_
            refine .pure ⟨hi, fun other => ?_⟩
            rw [declares] at other
            cases other
          case isFalse =>
            refine closed ((expression hlv).map.bind fun _ V' i hi => .read (.expect _ _) fun _ _ => .pure hi)

end Sights

namespace Level

theorem sighted_exhausted : exhausted.Sighted where
  built := built_exhausted
  reads := reading_exhausted
  statement _ _ _ := .read .here fun _ _ => .fail _ _

theorem Sighted.outward {lv : Level} (h : lv.Sighted) : lv.outward.Sighted where
  built K := (h.built K).outward
  reads := h.reads.outward
  statement _ _ _ := .statementBody h

theorem sighted_ofRoom (room : Nat) : (ofRoom room).Sighted := by
  induction room with
  | zero => exact sighted_exhausted
  | succ room ih => exact ih.outward

end Level
end Tickwise
