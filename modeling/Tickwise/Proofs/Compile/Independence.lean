import Tickwise.Proofs.Compile.Passes
set_option autoImplicit false

/-!
# Bodies do not depend on each other

Between two bodies no frame is open, no error is recorded, and the functions in sight are the same ones, whatever
happened in the bodies before. So each body fails or not by itself.
-/
namespace Tickwise

open Compile Compiler

/-- Between two bodies, with these functions in sight. -/
structure Compile.State.Rests (fs : List Signature) (ns : NativeRegistry) (s : State) : Prop extends s.Idle where
  functions : s.scopes.functions = fs
  natives : s.scopes.natives = ns

def Compile.SameFate (K : Sides) : Except (Option CompileError) Function × State →
    Except (Option CompileError) Function × State → Prop
  | (.ok _, s), (.ok _, t) => s.scopes.Alike K t.scopes
  | (.error e, s), (.error e', t) => Option.Rel (CompileError.Alike K.R) e e' ∧ s.scopes.Alike K t.scopes
  | _, _ => False

def Compile.failure? (r : Except (Option CompileError) Function × State) : Option CompileError :=
  match r.1 with
  | .ok _ => none
  | .error e => e

theorem Compile.SameFate.failure? {K : Sides} {r r' : Except (Option CompileError) Function × State}
    (h : SameFate K r r') : Option.Rel (CompileError.Alike K.R) (failure? r) (failure? r') := by
  obtain ⟨_ | _, _⟩ := r <;> obtain ⟨_ | _, _⟩ := r'
  · exact h.1
  · exact h.elim
  · exact h.elim
  · exact .none

def Compile.bodySides (R : Span → Span → Prop) (rest rest' : List Token) (stop : Span) (fs : List Signature)
    (ns : NativeRegistry) : Sides :=
  ⟨R, rest, rest', stop, fun fs' ns' => fs' = fs ∧ ns' = ns⟩

section Bodies

variable {R : Span → Span → Prop} {fs : List Signature} {ns : NativeRegistry} {h h' : Header} {rest rest' : List Token}
  {ctx : Context} {s t : State} {stop : Span}

theorem Compile.State.Rests.alike {K : Sides} (hs : s.Rests fs ns) (ht : t.Rests fs ns) (known : K.known fs ns) :
    s.scopes.Alike K t.scopes := by
  refine ⟨?_, hs.functions.trans ht.functions.symm, hs.natives.trans ht.natives.symm, ?_, ?_⟩
  · rw [hs.frames, ht.frames]
    exact .nil
  · rwa [hs.functions, hs.natives]
  · rw [hs.fine, ht.fine]
    exact .none

/-- Bodies of the same tokens share their fate, whatever was compiled before them and stands behind them. -/
theorem sameFate_compileBody (params : ParamsAlike R h.params h'.params) (ret : h'.ret = h.ret)
    (bodies : SameBodies R h.body h'.body rest rest') (hstop : R ctx.endSpan stop) (hs : s.Rests fs ns)
    (ht : t.Rests fs ns) :
    SameFate (bodySides R rest rest' stop fs ns) (compileBody ctx h s)
      (compileBody { ctx with endSpan := stop } h' t) := by
  let K := bodySides R rest rest' stop fs ns
  have scopes : s.scopes.Alike K t.scopes := hs.alike ht ⟨rfl, rfl⟩
  have both : Beside K s.rest t.rest (functionBody h) (functionBody h') (Inside (Aligned K 0) fun _ _ => True) :=
    .ofBodies params bodies _ _
  have ends : EndBeside K (Inside (Aligned K 0) fun _ _ => True)
      (functionBody h { ctx with ret := h.ret, breakables := [] } s)
      (functionBody h' { ctx with endSpan := stop, ret := h.ret, breakables := [] } t) :=
    both.ends { ctx with ret := h.ret, breakables := [] } hstop rfl rfl scopes
  -- The verdicts follow from the ends: an error is taken out, and the rest stays alike.
  unfold compileBody
  rw [ret]
  generalize functionBody h { ctx with ret := h.ret, breakables := [] } s = r at ends ⊢
  generalize functionBody h' { ctx with endSpan := stop, ret := h.ret, breakables := [] } t = r' at ends ⊢
  obtain ⟨_ | f, s'⟩ := r <;> obtain ⟨_ | f', t'⟩ := r'
  · exact ScopeStack.Alike.reset ends
  · exact ends.elim
  · exact ends.elim
  · exact ends.1

theorem sameFate_self (ctx : Context) (hh : h.Braced) (hs : s.Rests fs ns) (ht : t.Rests fs ns) :
    ∃ rest, SameFate (bodySides Eq rest rest ctx.endSpan fs ns) (compileBody ctx h s) (compileBody ctx h t) := by
  obtain ⟨opens, rest, skipped⟩ := hh
  exact ⟨rest, sameFate_compileBody (.refl h.params) rfl (.refl opens skipped) rfl hs ht⟩

theorem Compile.State.Rests.compileBody (ctx : Context) (hs : s.Rests fs ns) (hh : h.Braced) :
    (compileBody ctx h s).2.Rests fs ns ∧ ∀ e, (compileBody ctx h s).1 = .error e → e.isSome = true := by
  have waits : s.Waits fun _ => True := ⟨hs.toIdle, fun _ _ => trivial⟩
  let anywhere : Places := ⟨fun _ => True, ctx.endSpan⟩
  have placed : h.Placed anywhere.span := ⟨trivial, fun _ _ => trivial, fun _ _ => trivial⟩
  have compiled : Compiled anywhere (fun _ => True) h s (Compile.compileBody ctx h s) :=
    compiled_compileBody waits placed rfl
  obtain ⟨rest, fate⟩ := sameFate_self ctx hh hs hs
  generalize Compile.compileBody ctx h s = r at compiled fate ⊢
  obtain ⟨e | f, s'⟩ := r
  · obtain ⟨idle, e, rfl, _⟩ := compiled
    exact ⟨⟨idle, fate.2.known.1, fate.2.known.2⟩, fun _ same => Except.error.inj same ▸ rfl⟩
  · exact ⟨⟨compiled.1.toIdle, fate.known.1, fate.known.2⟩, nofun⟩

theorem failure?_eq (ctx : Context) (hh : h.Braced) (hs : s.Rests fs ns) (ht : t.Rests fs ns) :
    failure? (compileBody ctx h s) = failure? (compileBody ctx h t) := by
  obtain ⟨rest, fate⟩ := sameFate_self ctx hh hs ht
  have same : Option.Rel (CompileError.Alike Eq) _ _ := fate.failure?
  generalize failure? (compileBody ctx h s) = e at same ⊢
  generalize failure? (compileBody ctx h t) = e' at same ⊢
  cases same with
  | none => rfl
  | some same => exact congrArg some same.eq

theorem diagnoseBodies_eq {headers : List Header} (hh : ∀ h ∈ headers, h.Braced) (hs : s.Rests fs ns)
    (ht : t.Rests fs ns) :
    diagnoseBodies ctx headers s = headers.filterMap fun h => failure? (compileBody ctx h t) := by
  -- Each body finds the compiler at rest, also behind one that failed.
  induction headers generalizing s with
  | nil => rfl
  | cons h headers ih =>
    obtain ⟨first, hh⟩ := List.forall_mem_cons.1 hh
    have same := failure?_eq ctx first hs ht
    have kept := (hs.compileBody ctx first).1
    unfold diagnoseBodies
    rw [List.filterMap_cons, ← same]
    generalize compileBody ctx h s = r at kept ⊢
    obtain ⟨e | _, _⟩ := r
    · cases e with
      | none => exact ih hh kept
      | some e => exact congrArg (e :: ·) (ih hh kept)
    · exact ih hh kept

theorem head?_diagnoseBodies (ctx : Context) {headers : List Header} (hh : ∀ h ∈ headers, h.Braced)
    (hs : s.Rests fs ns) :
    ((∃ functions s', compileBodies ctx headers s = .ok (functions, s')) ∧ diagnoseBodies ctx headers s = []) ∨
      ∃ e, compileBodies ctx headers s = .error (some e) ∧ (diagnoseBodies ctx headers s).head? = some e := by
  induction headers generalizing s with
  | nil => exact .inl ⟨⟨[], s, rfl⟩, rfl⟩
  | cons h headers ih =>
    obtain ⟨first, hh⟩ := List.forall_mem_cons.1 hh
    obtain ⟨kept, reported⟩ := hs.compileBody ctx first
    unfold compileBodies diagnoseBodies
    generalize compileBody ctx h s = r at kept reported ⊢
    obtain ⟨e | f, s₁⟩ := r
    · obtain ⟨e, rfl⟩ := Option.isSome_iff_exists.1 (reported e rfl)
      exact .inr ⟨e, rfl, rfl⟩
    · dsimp only
      obtain ⟨⟨functions, s', bodies⟩, none⟩ | ⟨e, bodies, head⟩ := ih hh kept
      · exact .inl ⟨⟨f :: functions, s', by rw [bodies]; rfl⟩, none⟩
      · exact .inr ⟨e, by rw [bodies]; rfl, head⟩

end Bodies

theorem rests_outline (env : Environment) (tokens : List Token) : (outline env tokens).state.Rests
    (outline env tokens).state.scopes.functions (outline env tokens).state.scopes.natives :=
  ⟨(sound_outline_placesOf env tokens).ended.idle, rfl, rfl⟩

namespace Program

theorem head?_diagnoseTokens (id : String) (env : Environment) (tokens : List Token) :
    ((∃ p, ofTokens id env tokens = .ok p) ∧ diagnoseTokens env tokens = []) ∨
      ∃ e, ofTokens id env tokens = .error e ∧ (diagnoseTokens env tokens).head? = some e := by
  unfold ofTokens diagnoseTokens
  cases badToken? tokens with
  | some e => exact .inr ⟨e, rfl, rfl⟩
  | none =>
    have bodies := head?_diagnoseBodies { unitContext env tokens with classes := (outline env tokens).classes }
      (braced_outline env tokens) (rests_outline env tokens)
    dsimp only
    cases (outline env tokens).error with
    | some e => exact .inr ⟨e, rfl, rfl⟩
    | none =>
      obtain ⟨⟨functions, s, bodies⟩, none⟩ | ⟨e, bodies, head⟩ := bodies
      · exact .inl ⟨⟨_, by dsimp only; rw [bodies]⟩, none⟩
      · exact .inr ⟨e, by dsimp only; rw [bodies], head⟩

end Program
end Tickwise
