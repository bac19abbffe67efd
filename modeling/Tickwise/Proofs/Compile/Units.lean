import Tickwise.Proofs.Compile.Headers
import Tickwise.Proofs.Compile.Statements
set_option autoImplicit false

/-!
# Built functions

The body of a function begins in front of its own tokens, wherever the routine before it stopped. The functions
of a unit are numbered one after the other.
-/
namespace Tickwise

open Compile Compiler

def Function.vars (f : Function) : List VarId :=
  f.params.map Parameter.var ++ f.body.all.filterMap Instr.declared?

/-- The function is the one that the header announces. -/
structure Function.Follows (f : Function) (h : Header) : Prop where
  id : f.id = h.id
  name : f.name = h.name
  span : f.span = h.span
  arity : f.params.length = h.params.length

structure Function.Made (K : Setting) (m m' : Next) (f : Function) : Prop where
  node : m.node ≤ m'.node
  var : m.var ≤ m'.var
  ids : Spread m.node m'.node (f.body.all.map Instr.id)
  vars : Spread m.var m'.var f.vars
  covers : ∀ x, m.var ≤ x → x < m'.var → x ∈ f.vars
  regular : ∀ i ∈ f.body.all, K.span i.span ∧ i.form.Regular K m'
  braced : ∃ body, f.body.form = .block body

theorem getElem?_of_forall₂ {α β : Type} {R : α → β → Prop} {as : List α} {bs : List β} (h : List.Forall₂ R as bs)
    {k : Nat} {a : α} (ha : as[k]? = some a) : ∃ b, bs[k]? = some b ∧ R a b := by
  induction h generalizing k with
  | nil => cases ha
  | cons first _ ih =>
    cases k with
    | zero =>
      cases ha
      exact ⟨_, rfl, first⟩
    | succ k => exact ih ha

def Compile.State.next (s : State) : Next := ⟨s.nextNode, s.scopes.nextVar⟩

variable {K : Setting} {d k : Nat} {m m' m₁ : Next} {s s' : State} {h : Header} {ctx : Context} {turns : Nat}

theorem Compile.State.Ready.next (hs : s.Ready K d k m) : s.next = m := by
  obtain ⟨node, var⟩ := m
  exact congrArg₂ Next.mk hs.node hs.var

theorem Spread.range' (lo n : Nat) : Spread lo (lo + n) (List.range' lo n) :=
  ⟨List.nodup_range', fun _ hx => List.mem_range'_1.1 hx⟩

namespace Builds

theorem declareParameters {params : List (Token × Ty)} (hspan : ∀ q ∈ params, K.span q.1.span) :
    Builds K (d + 1) k m (Compiler.declareParameters params) fun k' m' ps => k' = k ∧
      m' = ⟨m.node, m.var + params.length⟩ ∧ ps.map Parameter.var = List.range' m.var params.length := by
  induction params generalizing m with
  | nil => exact pure ⟨rfl, rfl, rfl⟩
  | cons q params ih =>
    obtain ⟨first, rest⟩ := List.forall_mem_cons.1 hspan
    refine (declareVar q.1.text first q.2).bind ?_
    rintro _ _ var _ ⟨rfl, rfl, rfl⟩
    refine (ih rest).bind ?_
    rintro _ _ ps _ ⟨rfl, rfl, vars⟩
    refine pure ⟨rfl, ?_, ?_⟩
    · rw [List.length_cons, Nat.add_right_comm, Nat.add_assoc]
    · rw [List.map_cons, vars, List.length_cons, List.range'_succ]

theorem functionBody (hspan : ∀ q ∈ h.params, K.span q.1.span) : Builds K d k m (Compiler.inFrame true do
      let params ← Compiler.declareParameters h.params
      let body ← Compiler.block (Level.ofRoom maxNesting) false
      return (⟨h.id, h.name, params, h.ret, body, h.isExtern, h.span⟩ : Function))
    fun _ m' f => f.Made K m m' ∧ f.Follows h := by
  refine inFrame true ((declareParameters hspan).bind ?_)
  rintro _ _ params _ ⟨rfl, rfl, vars⟩
  refine (block (Level.built_ofRoom K maxNesting) false).bind fun _ m' body _ ⟨_, made, braced⟩ =>
    pure ⟨?_, rfl, rfl, rfl, ?_⟩
  · have first := Spread.range' m.var h.params.length
    rw [← vars] at first
    refine ⟨made.node, Nat.le_trans (Nat.le_add_right ..) made.var, made.ids,
      first.append made.vars (Nat.le_add_right ..) made.var, fun x above below => ?_, made.regular, braced⟩
    refine List.mem_append.2 ?_
    by_cases early : x < m.var + h.params.length
    · exact .inl (vars ▸ List.mem_range'_1.2 ⟨above, early⟩)
    · exact .inr (made.covers x (Nat.not_lt.1 early) below)
  · have lengths := congrArg List.length vars
    rwa [List.length_map, List.length_range'] at lengths

end Builds

namespace Header.Placed

theorem ends_functionBody (hh : h.Placed K.span) (hend : ctx.endSpan = K.stop)
    (hs : { s with rest := h.body }.Ready K d h.body.length m) :
    Ends K d h.body.length (fun _ m' f => f.Made K m m' ∧ f.Follows h) (Compiler.functionBody h ctx s) :=
  (Builds.functionBody hh.params).ends hend hs

theorem functionBody_steady (hh : h.Placed K.span) (hend : ctx.endSpan = K.stop)
    (hs : { s with rest := h.body }.Ready K d h.body.length m) (hk : h.body.length < ctx.turns)
    (ht : h.body.length < turns) :
    Compiler.functionBody h { ctx with turns := turns } s = Compiler.functionBody h ctx s :=
  (Builds.functionBody hh.params).steady hend hk ht hs

end Header.Placed

/-- What is known while a function is compiled: no other variables are in sight. -/
def Compile.compiling (P : Places) (known : Signature → Prop) (base : VarId) : Setting :=
  ⟨P, base, fun _ => False, known⟩

/-- Between two functions, where these functions can be called. -/
structure Compile.State.Waits (known : Signature → Prop) (s : State) : Prop extends s.Idle where
  known : ∀ f ∈ s.scopes.functions, known f

variable {P : Places} {known : Signature → Prop}

theorem Compile.State.Waits.ready (hs : s.Waits known) (hh : h.Placed P.span) :
    { s with rest := h.body }.Ready (compiling P known s.scopes.nextVar) 0 h.body.length s.next :=
  ⟨rfl, hh.body, rfl, rfl, hs.fine, congrArg List.length hs.frames, Nat.le_refl _,
    fun _ hf => absurd (hs.frames ▸ hf) List.not_mem_nil, hs.known⟩

def Compile.Compiled (P : Places) (known : Signature → Prop) (h : Header) (s : State) :
    Except (Option CompileError) Function × State → Prop
  | (.ok f, s') => s'.Waits known ∧ f.Follows h ∧ f.Made (compiling P known s.scopes.nextVar) s.next s'.next
  | (.error error, s') => s'.Idle ∧ ∃ e, error = some e ∧ P.Reports e.span

theorem compiled_compileBody (hs : s.Waits known) (hh : h.Placed P.span) (hend : ctx.endSpan = P.stop) :
    Compiled P known h s (compileBody ctx h s) := by
  unfold compileBody
  replace hend : { ctx with ret := h.ret, breakables := [] }.endSpan = P.stop := hend
  generalize { ctx with ret := h.ret, breakables := [] } = inner at hend
  have ends := hh.ends_functionBody hend (hs.ready hh)
  generalize functionBody h inner s = r at ends ⊢
  obtain ⟨_ | f, s'⟩ := r
  · exact ⟨⟨rfl, rfl⟩, ends⟩
  · obtain ⟨k', m', _, ready, made, follows⟩ := ends
    obtain rfl := ready.next
    exact ⟨⟨⟨List.eq_nil_of_length_eq_zero ready.depth, ready.fine⟩, ready.known⟩, follows, made⟩

theorem compileBody_steady (hs : s.Waits known) (hh : h.Placed P.span) (hend : ctx.endSpan = P.stop)
    (hk : h.body.length < ctx.turns) (ht : h.body.length < turns) :
    compileBody { ctx with turns := turns } h s = compileBody ctx h s := by
  unfold compileBody
  replace hend : { ctx with ret := h.ret, breakables := [] }.endSpan = P.stop := hend
  replace hk : h.body.length < { ctx with ret := h.ret, breakables := [] }.turns := hk
  have same := hh.functionBody_steady hend (hs.ready hh) hk ht
  dsimp only at same
  rw [same]

/-- The functions were made one after the other. -/
inductive Compile.Functions (P : Places) (known : Signature → Prop) : Next → Next → List Function → Prop where
  | nil (m : Next) : Functions P known m m []
  | cons {m m₁ m' : Next} {f : Function} {fs : List Function} (first : f.Made (compiling P known m.var) m m₁)
      (rest : Functions P known m₁ m' fs) : Functions P known m m' (f :: fs)

namespace Compile.Functions

variable {fs : List Function}

theorem le (h : Functions P known m m' fs) : m.node ≤ m'.node ∧ m.var ≤ m'.var := by
  induction h with
  | nil => exact ⟨Nat.le_refl _, Nat.le_refl _⟩
  | cons first _ ih => exact ⟨Nat.le_trans first.node ih.1, Nat.le_trans first.var ih.2⟩

theorem ids (h : Functions P known m m' fs) : Spread m.node m'.node ((fs.flatMap (·.body.all)).map Instr.id) := by
  induction h with
  | nil => exact .nil
  | cons first rest ih =>
    rw [List.flatMap_cons, List.map_append]
    exact first.ids.append ih first.node rest.le.1

theorem vars (h : Functions P known m m' fs) : Spread m.var m'.var (fs.flatMap Function.vars) := by
  induction h with
  | nil => exact .nil
  | cons first rest ih =>
    rw [List.flatMap_cons]
    exact first.vars.append ih first.var rest.le.2

theorem each (h : Functions P known m m' fs) :
    ∀ f ∈ fs, ∃ m₁ m₂ : Next, f.Made (compiling P known m₁.var) m₁ m₂ := by
  induction h with
  | nil => nofun
  | cons first _ ih => exact List.forall_mem_cons.2 ⟨⟨_, _, first⟩, ih⟩

end Compile.Functions

def Compile.AllCompiled (P : Places) (known : Signature → Prop) (headers : List Header) (s : State) :
    Except (Option CompileError) (List Function × State) → Prop
  | .ok (fs, s') => List.Forall₂ Function.Follows fs headers ∧ Functions P known s.next s'.next fs
  | .error error => ∃ e, error = some e ∧ P.Reports e.span

theorem allCompiled_compileBodies {headers : List Header} (hs : s.Waits known) (hh : ∀ h ∈ headers, h.Placed P.span)
    (hend : ctx.endSpan = P.stop) : AllCompiled P known headers s (compileBodies ctx headers s) := by
  induction headers generalizing s with
  | nil => exact ⟨.nil, .nil _⟩
  | cons h headers ih =>
    obtain ⟨placed, hh⟩ := List.forall_mem_cons.1 hh
    have compiled := compiled_compileBody hs placed hend
    unfold compileBodies
    generalize compileBody ctx h s = r at compiled ⊢
    obtain ⟨_ | f, s₁⟩ := r
    · exact compiled.2
    · obtain ⟨hs₁, follows, made⟩ := compiled
      have rest := ih hs₁ hh
      dsimp only
      generalize compileBodies ctx headers s₁ = r at rest ⊢
      obtain _ | ⟨fs, s'⟩ := r
      · exact rest
      · exact ⟨.cons follows rest.1, .cons made rest.2⟩

theorem compileBodies_steady {headers : List Header} (hs : s.Waits known) (hh : ∀ h ∈ headers, h.Placed P.span)
    (hend : ctx.endSpan = P.stop) (short : ∀ h ∈ headers, h.body.length < ctx.turns ∧ h.body.length < turns) :
    compileBodies { ctx with turns := turns } headers s = compileBodies ctx headers s := by
  induction headers generalizing s with
  | nil => rfl
  | cons h headers ih =>
    obtain ⟨placed, hh⟩ := List.forall_mem_cons.1 hh
    obtain ⟨first, short⟩ := List.forall_mem_cons.1 short
    have compiled := compiled_compileBody hs placed hend
    unfold compileBodies
    rw [compileBody_steady hs placed hend first.1 first.2]
    generalize compileBody ctx h s = r at compiled ⊢
    obtain ⟨_ | f, s₁⟩ := r
    · rfl
    · dsimp only
      rw [ih compiled.1 hh short]

theorem placed_of_mem_diagnoseBodies {headers : List Header} (hs : s.Idle) (hh : ∀ h ∈ headers, h.Placed P.span)
    (hend : ctx.endSpan = P.stop) : ∀ e ∈ diagnoseBodies ctx headers s, P.Reports e.span := by
  induction headers generalizing s with
  | nil => nofun
  | cons h headers ih =>
    obtain ⟨placed, hh⟩ := List.forall_mem_cons.1 hh
    have waits : s.Waits fun _ => True := ⟨hs, fun _ _ => trivial⟩
    have compiled := compiled_compileBody waits placed hend
    unfold diagnoseBodies
    generalize compileBody ctx h s = r at compiled ⊢
    obtain ⟨error | f, s₁⟩ := r
    · obtain ⟨idle, e, rfl, hspan⟩ := compiled
      exact List.forall_mem_append.2 ⟨List.forall_mem_singleton.2 hspan, ih idle hh⟩
    · exact ih compiled.1.toIdle hh

theorem diagnoseBodies_steady {headers : List Header} (hs : s.Idle) (hh : ∀ h ∈ headers, h.Placed P.span)
    (hend : ctx.endSpan = P.stop) (short : ∀ h ∈ headers, h.body.length < ctx.turns ∧ h.body.length < turns) :
    diagnoseBodies { ctx with turns := turns } headers s = diagnoseBodies ctx headers s := by
  induction headers generalizing s with
  | nil => rfl
  | cons h headers ih =>
    obtain ⟨placed, hh⟩ := List.forall_mem_cons.1 hh
    obtain ⟨first, short⟩ := List.forall_mem_cons.1 short
    have waits : s.Waits fun _ => True := ⟨hs, fun _ _ => trivial⟩
    have compiled := compiled_compileBody waits placed hend
    unfold diagnoseBodies
    rw [compileBody_steady waits placed hend first.1 first.2]
    generalize compileBody ctx h s = r at compiled ⊢
    obtain ⟨error | f, s₁⟩ := r
    · dsimp only
      rw [ih compiled.1 hh short]
    · exact ih compiled.1.toIdle hh short

def Compile.Outline.start (env : Environment) (tokens : List Token) : Outline :=
  ⟨[], [], none, ⟨tokens, ScopeStack.start env.natives, 0⟩⟩

theorem Compile.Outline.sound_start {tokens : List Token} (env : Environment) (spans : ∀ t ∈ tokens, P.span t.span) :
    (Outline.start env tokens).Sound P tokens.length := by
  refine ⟨⟨nofun, ⟨rfl, rfl⟩, fun _ => Nat.lt_succ_self _, fun _ => ?_⟩, nofun⟩
  exact ⟨rfl, spans, rfl, rfl, rfl, rfl, Nat.le_refl _, nofun, nofun⟩

theorem sound_outline {env : Environment} {tokens : List Token} (spans : ∀ t ∈ tokens, P.span t.span)
    (stop : endSpan tokens = P.stop) : (outline env tokens).Sound P tokens.length ∧
      ((outline env tokens).error = none → (outline env tokens).state.rest = []) := by
  have stop : (unitContext env tokens).endSpan = P.stop := stop
  exact (Outline.sound_start env spans).complete stop (Nat.le_refl _)

theorem Program.compiled_of_ofTokens {id : String} {env : Environment} {tokens : List Token} {p : Program}
    (h : Program.ofTokens id env tokens = .ok p) : (outline env tokens).error = none ∧
      ∃ functions s, compileBodies { unitContext env tokens with classes := (outline env tokens).classes }
          (outline env tokens).headers (outline env tokens).state = .ok (functions, s) ∧
        p = ⟨id, functions, (outline env tokens).classes, s.nextNode, env⟩ := by
  let anywhere : Places := ⟨fun _ => True, endSpan tokens⟩
  obtain ⟨sound, _⟩ : (outline env tokens).Sound anywhere tokens.length ∧ _ := sound_outline (fun _ _ => trivial) rfl
  unfold Program.ofTokens at h
  split at h
  case h_1 => cases h
  case h_2 =>
    dsimp only at h
    split at h
    case h_1 => cases h
    case h_2 fine =>
      refine ⟨fine, ?_⟩
      split at h
      case h_1 functions s compiled => exact ⟨functions, s, compiled, (Except.ok.inj h).symm⟩
      case h_2 => cases h
      case h_3 compiled =>
        -- A body that is not compiled leaves an error.
        have waits : (outline env tokens).state.Waits fun _ => True := ⟨sound.ended.idle, fun _ _ => trivial⟩
        have stop : { unitContext env tokens with classes := (outline env tokens).classes }.endSpan = anywhere.stop := rfl
        have bodies := allCompiled_compileBodies waits (fun h mem => (sound.headers h mem).1) stop
        rw [compiled] at bodies
        obtain ⟨_, none, _⟩ := bodies
        cases none

theorem Program.functions_of_ofTokens {id : String} {env : Environment} {tokens : List Token} {p : Program}
    (spans : ∀ t ∈ tokens, P.span t.span) (stop : endSpan tokens = P.stop)
    (knows : (outline env tokens).error = none → ∀ f ∈ (outline env tokens).state.scopes.functions, known f)
    (h : Program.ofTokens id env tokens = .ok p) : (outline env tokens).error = none ∧
      List.Forall₂ Function.Follows p.functions (outline env tokens).headers ∧
        ∃ m, Functions P known ⟨0, 1⟩ m p.functions ∧ p.nodeCount = m.node := by
  obtain ⟨sound, _⟩ : (outline env tokens).Sound P tokens.length ∧ _ := sound_outline spans stop
  obtain ⟨fine, functions, s, compiled, rfl⟩ := compiled_of_ofTokens h
  have waits : (outline env tokens).state.Waits known := ⟨sound.ended.idle, knows fine⟩
  have stop : { unitContext env tokens with classes := (outline env tokens).classes }.endSpan = P.stop := stop
  have bodies := allCompiled_compileBodies waits (fun h mem => (sound.headers h mem).1) stop
  rw [compiled] at bodies
  exact ⟨fine, bodies.1, _, (sound.ended.ready fine).next ▸ bodies.2, rfl⟩

/-- The name of the function has a range of a kind, and its body is a numbered block. -/
structure Function.Within (P : Span → Prop) (n : Nat) (f : Function) : Prop where
  span : P f.span
  body : f.body.Within P n
  braced : ∃ body, f.body.form = .block body

theorem Program.within_ofTokens {id : String} {env : Environment} {tokens : List Token} {p : Program}
    {P : Span → Prop} (ranges : ∀ t ∈ tokens, P t.span) (h : Program.ofTokens id env tokens = .ok p) :
    ∀ f ∈ p.functions, f.Within P p.nodeCount := by
  let places : Places := ⟨P, endSpan tokens⟩
  have knows (_ : (outline env tokens).error = none) : ∀ f ∈ (outline env tokens).state.scopes.functions, True :=
    fun _ _ => trivial
  obtain ⟨_, follows, m, made, count⟩ := functions_of_ofTokens (P := places) ranges rfl knows h
  have sound : (outline env tokens).Sound places tokens.length := (sound_outline ranges rfl).1
  intro f hf
  obtain ⟨m₁, m₂, each⟩ := made.each f hf
  obtain ⟨k, hk⟩ := List.mem_iff_getElem?.1 hf
  obtain ⟨h, hh, same⟩ := getElem?_of_forall₂ follows hk
  refine ⟨same.span ▸ (sound.headers h (List.mem_of_getElem? hh)).1.span, .of_all fun j hj => ⟨?_, (each.regular j hj).1⟩, each.braced⟩
  rw [count]
  exact (made.ids.range j.id (List.mem_map_of_mem (List.mem_flatMap.2 ⟨f, hf, hj⟩))).2

end Tickwise
