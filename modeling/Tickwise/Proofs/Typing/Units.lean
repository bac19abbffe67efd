import Tickwise.Proofs.Compile.Units
import Tickwise.Proofs.Typing.Statements
set_option autoImplicit false

/-!
# Typed programs

Every program that is compiled is typed: there are declarations that its functions agree with.
-/
namespace Tickwise

open Compile Compiler

def Program.class? (p : Program) (name : String) : Option ClassLayout :=
  (p.classes.find? (·.name = name)).or (p.env.findClass? name)

/-- What callers see of the function: its parameter types and its result type. -/
def Function.signature (f : Function) : List Ty × Ty := (f.params.map Parameter.ty, f.ret)

structure Function.Typed (D : Declarations) (f : Function) : Prop where
  params : ∀ q ∈ f.params, D.var? q.var = some q.ty
  body : f.body.Typed D f.ret

/-- The declarations are those of the program, and its functions agree with them. -/
structure Program.Typed (p : Program) (D : Declarations) : Prop where
  classes : ∀ name, p.class? name = D.class? name
  natives : ∀ id, p.env.natives.get? id = D.native? id
  signatures : ∀ {id f}, p.function? id = some f → D.function? id = some f.signature
  functions : ∀ f ∈ p.functions, f.Typed D

theorem Function.Typed.mono {D D' : Declarations} (hD : D.Le D') {f : Function} (h : f.Typed D) :
    f.Typed D' :=
  ⟨fun q hq => hD.vars (h.params q hq), h.body.mono hD⟩

namespace Gives

variable {ctx : Context} {K : Known}

theorem declareParameters (params : List (Token × Ty)) :
    Gives ctx K (Compiler.declareParameters params) fun K' ps =>
      (∀ D, K' = some D → ∀ q ∈ ps, D.var? q.var = some q.ty) ∧
        ps.map Parameter.ty = params.map Prod.snd := by
  induction params generalizing K with
  | nil => exact .pure ⟨fun _ _ => nofun, rfl⟩
  | cons param params ih =>
    refine (declareVar param.1.text param.1.span param.2).bind fun K₁ var _ hv => ?_
    refine ih.bind fun K₂ ps le ⟨declared, tys⟩ => .pure ⟨fun D hD => ?_, ?_⟩
    · have first := le.all (fun le h => le.vars h) hv D hD
      exact List.forall_mem_cons.2 ⟨first, declared D hD⟩
    · rw [List.map_cons, List.map_cons, tys]

theorem functionBody (h : Header) (hr : ctx.ret = h.ret) :
    Gives ctx K (Compiler.functionBody h) fun K' f =>
      (∀ D, K' = some D → f.Typed D) ∧ f.signature = (h.params.map Prod.snd, h.ret) := by
  have reads : Reads (modify ({ · with rest := h.body }) : Compiler Unit) :=
    ⟨fun _ _ => .inl ⟨_, rfl, rfl⟩⟩
  refine .read reads fun _ => inFrame true ?_
  refine (declareParameters h.params).bind fun K₁ params _ ⟨declared, tys⟩ => ?_
  refine (block (Level.typed_ofRoom maxNesting) false).bind fun K₂ body le typed => .pure ⟨?_, ?_⟩
  · intro D hD
    refine ⟨?_, hr ▸ typed D hD⟩
    exact le.all (fun le h q hq => le.vars (h q hq)) declared D hD
  · change (params.map Parameter.ty, h.ret) = _
    rw [tys]

end Gives

theorem typed_of_compileBody {ctx : Context} {h : Header} {s s' : State} {f : Function}
    {D : Declarations} (hs : D.Agrees ctx s) (hc : compileBody ctx h s = (.ok f, s')) :
    ∃ D', D.Le D' ∧ D'.Agrees ctx s' ∧ f.Typed D' ∧
      f.signature = (h.params.map Prod.snd, h.ret) := by
  unfold compileBody at hc
  split at hc
  case h_1 f' s₁ answer =>
    cases hc
    have known : Known.Agrees (some D) { ctx with ret := h.ret, breakables := [] } s := by
      intro D' same
      cases same
      exact ⟨hs.classes, hs.natives, hs.functions, hs.vars, hs.fresh⟩
    obtain ⟨K', le, agrees, typed, signature⟩ := (Gives.functionBody h rfl).answers known answer
    obtain ⟨D', rfl, le⟩ := le
    have agrees := agrees D' rfl
    exact ⟨D', le, ⟨agrees.classes, agrees.natives, agrees.functions, agrees.vars, agrees.fresh⟩,
      typed D' rfl, signature⟩
  case h_2 => cases hc

theorem typed_of_compileBodies {ctx : Context} {headers : List Header} {s s' : State}
    {fs : List Function} {D : Declarations} (hs : D.Agrees ctx s)
    (h : compileBodies ctx headers s = .ok (fs, s')) :
    ∃ D', D.Le D' ∧ (∀ f ∈ fs, f.Typed D') ∧
      fs.map Function.signature = headers.map fun h => (h.params.map Prod.snd, h.ret) := by
  induction headers generalizing s fs D with
  | nil =>
    cases h
    exact ⟨D, .refl D, nofun, rfl⟩
  | cons header headers ih =>
    unfold compileBodies at h
    split at h
    case h_1 => cases h
    case h_2 f s₁ answer =>
      obtain ⟨D₁, le, agrees, typed, signature⟩ := typed_of_compileBody hs answer
      cases hr : compileBodies ctx headers s₁ with
      | error e =>
        rw [hr] at h
        cases h
      | ok rest =>
        rw [hr] at h
        cases h
        obtain ⟨D₂, le', typed', signatures⟩ := ih agrees hr
        refine ⟨D₂, le.trans le', List.forall_mem_cons.2 ⟨typed.mono le', typed'⟩, ?_⟩
        rw [List.map_cons, List.map_cons, signature, signatures]

/-- The functions that calls can see are those of the headers, each under its position. -/
structure Compile.Outline.Lists (o : Outline) (natives : NativeRegistry) : Prop where
  functions : o.state.scopes.functions = o.headers.map Header.signature
  positions : ∀ (k : Nat) (h : Header), o.headers[k]? = some h → h.id = k
  natives : o.state.scopes.natives = natives
  frames : o.state.scopes.frames = []

def Blames {α : Type} (c : Compiler α) : Prop :=
  ∀ ctx s, (c ctx s).1 = none → (c ctx s).2.scopes.error.isSome = true

theorem isSome_error_recordError (s : ScopeStack) (cause : CompileError.Cause) (span : Span) :
    (s.recordError cause span).error.isSome = true := by
  unfold ScopeStack.recordError
  cases h : s.error with
  | none => rfl
  | some e => simp [h]

theorem Compiler.Reads.blames {α : Type} {c : Compiler α} (h : Reads c) : Blames c := by
  intro ctx s failed
  rcases h.leaves ctx s with ⟨a, answer, _⟩ | ⟨cause, span, _, scopes⟩
  · rw [failed] at answer
    cases answer
  · rw [scopes]
    exact isSome_error_recordError _ _ _

theorem Blames.bind {α β : Type} {c : Compiler α} {f : α → Compiler β} (hc : Blames c)
    (hf : ∀ a, Blames (f a)) : Blames (c >>= f) := by
  intro ctx s failed
  have first := hc ctx s
  rw [bind_apply] at failed ⊢
  generalize c ctx s = r at first failed ⊢
  rcases r with ⟨_ | a, s'⟩
  · exact first rfl
  · exact hf a ctx s' failed

theorem Blames.ite {α : Type} {q : Prop} [Decidable q] {c d : Compiler α} (hc : Blames c)
    (hd : Blames d) : Blames (if q then c else d) := by
  split
  · exact hc
  · exact hd

theorem blames_addFunction (h : Header) : Blames (addFunction h) := by
  have onScopes : Blames (onScopes (·.addFunction h.signature)) := fun _ _ failed => by cases failed
  exact onScopes.bind fun _ => .ite (Reads.pure _).blames (Reads.fail _ _).blames

theorem functions_of_addFunction {h : Header} {ctx : Context} {s s' : State}
    (ha : addFunction h ctx s = (some (), s')) :
    s'.scopes = { s.scopes with functions := s.scopes.functions ++ [h.signature] } := by
  obtain ⟨added, s₁, hs, ha⟩ := some_of_bind ha
  cases added with
  | false => cases ha
  | true =>
    cases ha
    obtain ⟨answer, rfl⟩ := Prod.mk.inj hs
    have answer : (s.scopes.addFunction h.signature).1 = true := Option.some.inj answer
    change (s.scopes.addFunction h.signature).2 = _
    unfold ScopeStack.addFunction at answer ⊢
    split at answer
    case isTrue => cases answer
    case isFalse new => rw [if_neg new]

theorem blames_functionHeader (id : FunctionId) : Blames (functionHeader id) := by
  refine .ite (Reads.blames (.bind .here fun _ => .fail _ _)) ?_
  refine (Reads.eatIf _).blames.bind fun _ => (Reads.typeName true).blames.bind fun _ => ?_
  refine Reads.expectIdent.blames.bind fun _ => Reads.parameters.blames.bind fun _ => ?_
  exact (blames_addFunction _).bind fun _ => Reads.skipBody.blames.bind fun _ => (Reads.pure _).blames

theorem functions_of_functionHeader {id : FunctionId} {ctx : Context} {s s' : State} {h : Header}
    (hc : functionHeader id ctx s = (some h, s')) : h.id = id ∧
      s'.scopes = { s.scopes with functions := s.scopes.functions ++ [h.signature] } := by
  unfold functionHeader at hc
  split at hc
  case isTrue =>
    obtain ⟨_, _, _, hc⟩ := some_of_bind hc
    cases hc
  case isFalse =>
    obtain ⟨extern?, s₁, h₁, hc⟩ := some_of_bind hc
    obtain ⟨⟨_, ret⟩, s₂, h₂, hc⟩ := some_of_bind hc
    obtain ⟨name, s₃, h₃, hc⟩ := some_of_bind hc
    obtain ⟨params, s₄, h₄, hc⟩ := some_of_bind hc
    obtain ⟨_, s₅, h₅, hc⟩ := some_of_bind hc
    obtain ⟨body, s₆, h₆, hc⟩ := some_of_bind hc
    cases hc
    refine ⟨rfl, ?_⟩
    rw [Reads.skipBody.scopes h₆, functions_of_addFunction h₅, Reads.parameters.scopes h₄,
      Reads.expectIdent.scopes h₃, (Reads.typeName true).scopes h₂, (Reads.eatIf _).scopes h₁]
    rfl

namespace Compile.Outline

variable {o : Outline} {natives : NativeRegistry}

theorem extend_cases {ctx : Context} (fine : (o.extend ctx).error = none) :
    (o.state.rest.head?.any (·.isWord .classWord) = true ∧ ∃ cls s',
      Compiler.classDeclaration { ctx with classes := o.classes } o.state = (some cls, s') ∧
        o.extend ctx = ⟨o.classes ++ [cls], o.headers, none, { s' with scopes := s'.scopes.reset.2 }⟩) ∨
    ∃ h s', Compiler.functionHeader o.headers.length { ctx with classes := o.classes } o.state = (some h, s') ∧
      o.extend ctx = ⟨o.classes, o.headers ++ [h], none, { s' with scopes := s'.scopes.reset.2 }⟩ := by
  have failed {s : State} (fine : s.scopes.error = none) (blamed : s.scopes.error.isSome = true) : False := by
    rw [fine] at blamed
    cases blamed
  cases begins : o.state.rest.head?.any (·.isWord .classWord) with
  | true =>
    rw [extend_of_class begins] at fine ⊢
    have blames := Reads.classDeclaration.blames { ctx with classes := o.classes } o.state
    generalize Compiler.classDeclaration { ctx with classes := o.classes } o.state = r at fine blames ⊢
    obtain ⟨_ | cls, s'⟩ := r
    · exact (failed fine (blames rfl)).elim
    · have fine : s'.scopes.reset.1 = none := fine
      exact .inl ⟨rfl, cls, s', rfl, by rw [withClass, fine]; rfl⟩
  | false =>
    rw [extend_of_function begins] at fine ⊢
    have blames := blames_functionHeader o.headers.length { ctx with classes := o.classes } o.state
    generalize Compiler.functionHeader o.headers.length { ctx with classes := o.classes } o.state = r at fine blames ⊢
    obtain ⟨_ | h, s'⟩ := r
    · exact (failed fine (blames rfl)).elim
    · have fine : s'.scopes.reset.1 = none := fine
      exact .inr ⟨h, s', rfl, by rw [withHeader, fine]; rfl⟩

theorem Lists.extend (ho : o.Lists natives) (ctx : Context) (fine : (o.extend ctx).error = none) :
    (o.extend ctx).Lists natives := by
  obtain ⟨_, cls, s', hc, same⟩ | ⟨h, s', hc, same⟩ := extend_cases fine
  · have scopes := Reads.classDeclaration.scopes hc
    rw [same]
    refine ⟨?_, ho.positions, ?_, rfl⟩
    · change s'.scopes.functions = _
      rw [scopes, ho.functions]
    · change s'.scopes.natives = _
      rw [scopes, ho.natives]
  · obtain ⟨id, scopes⟩ := functions_of_functionHeader hc
    rw [same]
    refine ⟨?_, ?_, ?_, rfl⟩
    · change s'.scopes.functions = _
      simp [scopes, ho.functions]
    · intro k h' hk
      have hk : (o.headers ++ [h])[k]? = some h' := hk
      rw [List.getElem?_append] at hk
      split at hk
      case isTrue => exact ho.positions k h' hk
      case isFalse beyond =>
        rw [List.getElem?_singleton] at hk
        split at hk
        case isTrue at_ =>
          cases hk
          rw [id]
          exact Nat.le_antisymm (Nat.le_of_not_lt beyond) (Nat.le_of_sub_eq_zero at_)
        case isFalse => cases hk
    · change s'.scopes.natives = _
      simp [scopes, ho.natives]

/-- What each declaration that is read without an error keeps holds of an outline without an error. -/
theorem complete_of_extend {Q : Outline → Prop} {ctx : Context}
    (step : ∀ {o}, Q o → (o.extend ctx).error = none → Q (o.extend ctx)) (ho : Q o) (turns : Nat)
    (fine : (Outline.complete ctx turns o).error = none) : Q (Outline.complete ctx turns o) := by
  induction turns generalizing o with
  | zero => exact ho
  | succ turns ih =>
    unfold Outline.complete at fine ⊢
    split at fine
    case isTrue done =>
      rw [if_pos done]
      exact ho
    case isFalse more =>
      rw [if_neg more]
      apply ih _ fine
      apply step ho
      -- An error of this declaration would have been kept to the end.
      cases he : (o.extend ctx).error with
      | none => rfl
      | some e =>
        cases turns with
        | zero => exact absurd (he.symm.trans fine) (Option.some_ne_none e)
        | succ turns =>
          unfold Outline.complete at fine
          rw [if_pos (.inr (by rw [he]; rfl)), he] at fine
          cases fine

theorem Lists.complete (ho : o.Lists natives) (ctx : Context) (turns : Nat)
    (fine : (Outline.complete ctx turns o).error = none) :
    (Outline.complete ctx turns o).Lists natives :=
  complete_of_extend (Q := (·.Lists natives)) (fun ho fine => ho.extend ctx fine) ho turns fine

end Compile.Outline

theorem lists_outline {env : Environment} {tokens : List Token}
    (fine : (outline env tokens).error = none) : (outline env tokens).Lists env.natives := by
  have start : Outline.Lists ⟨[], [], none, ⟨tokens, ScopeStack.start env.natives, 0⟩⟩ env.natives :=
    ⟨rfl, nofun, rfl, rfl⟩
  exact start.complete _ _ fine

def Compile.Outline.declarations (o : Outline) (env : Environment) : Declarations where
  class? name := (o.classes.find? (·.name = name)).or (env.findClass? name)
  function? id := (o.headers[id]?).map fun h => (h.params.map Prod.snd, h.ret)
  native? := env.natives.get?
  var? _ := none

theorem Compile.Outline.Lists.agrees {o : Outline} {env : Environment} (ho : o.Lists env.natives)
    (tokens : List Token) :
    (o.declarations env).Agrees { unitContext env tokens with classes := o.classes } o.state := by
  refine ⟨fun name => rfl, fun id => by rw [ho.natives]; rfl, ?_, ?_, fun id _ => rfl⟩
  · intro f hf
    rw [ho.functions] at hf
    obtain ⟨h, hh, rfl⟩ := List.mem_map.1 hf
    obtain ⟨k, hk⟩ := List.mem_iff_getElem?.1 hh
    change (o.headers[h.id]?).map _ = _
    rw [ho.positions k h hk, hk]
    rfl
  · rw [ho.frames]
    nofun

theorem Program.typed_ofTokens {id : String} {env : Environment} {tokens : List Token} {p : Program}
    (h : Program.ofTokens id env tokens = .ok p) : ∃ D, p.Typed D := by
  obtain ⟨fine, fs, s, bodies, rfl⟩ := Program.compiled_of_ofTokens h
  obtain ⟨D, le, typed, signatures⟩ := typed_of_compileBodies ((lists_outline fine).agrees tokens) bodies
  refine ⟨D, fun name => ?_, fun id => ?_, fun {id f} found => ?_, typed⟩
  · exact (congrFun le.classes name).symm
  · exact (congrFun le.natives id).symm
  · rw [le.functions]
    have found : fs[id]? = some f := found
    have header := congrArg (·[id]?) signatures
    simp only [List.getElem?_map, found] at header
    exact header.symm

end Tickwise
