import Tickwise.Proofs.Sight.Statements
import Tickwise.Proofs.Typing.Units
set_option autoImplicit false

/-!
# Functions access variables in sight

Every program that is compiled accesses the variables that are in sight: in the body of a function these are
its parameters first, and no others from outside. A call has an argument for each of them.
-/
namespace Tickwise

open Compile Compiler

def Program.Contains (p : Program) (i : Instr) : Prop := ∃ f ∈ p.functions, i ∈ f.body.all

/-- A switch of the program has a label that an instruction is behind, and the declaration of a variable in front
of it. -/
def Program.Bypasses (p : Program) (i : Instr) (x : VarId) : Prop := ∃ s, p.Contains s ∧ s.Bypasses i x

def Function.Sees (f : Function) : Prop := f.body.Sees (f.params.map Parameter.var)

/-- Functions are blocks that access variables in sight, and calls have an argument for each parameter. -/
structure Program.Sighted (p : Program) : Prop where
  braced : ∀ f ∈ p.functions, ∃ body, f.body.form = .block body
  sees : ∀ f ∈ p.functions, f.Sees
  arity : ∀ {i id args ret f}, p.Contains i → i.form = .call (.user id) args ret → p.function? id = some f →
    args.length = f.params.length

theorem Program.Contains.part {p : Program} {i c : Instr} (h : p.Contains i) (hc : c ∈ i.children) :
    p.Contains c := by
  obtain ⟨f, hf, hi⟩ := h
  exact ⟨f, hf, Instr.mem_all_trans hi (Instr.mem_all_of_part hc (Instr.mem_all_self c))⟩

theorem Program.contains_body {p : Program} {id : FunctionId} {f : Function} (found : p.function? id = some f) :
    p.Contains f.body :=
  ⟨f, List.mem_of_getElem? found, Instr.mem_all_self _⟩

theorem Instr.Typed.of_mem_all {D : Declarations} {ret : Ty} {i j : Instr} (h : i.Typed D ret) (hj : j ∈ i.all) :
    j.Typed D ret := by
  induction h with
  | @intro i checks parts ih =>
    rw [all_eq] at hj
    rcases List.mem_cons.1 hj with rfl | hj
    · exact .intro checks parts
    · obtain ⟨c, hc, hj⟩ := List.mem_flatMap.1 hj
      exact ih c hc hj

theorem Program.Typed.arity {p : Program} {D : Declarations} (h : p.Typed D) {i : Instr} {id : FunctionId}
    {args : List Instr} {ret : Ty} {f : Function} (hi : p.Contains i) (form : i.form = .call (.user id) args ret)
    (found : p.function? id = some f) : args.length = f.params.length := by
  obtain ⟨g, hg, hi⟩ := hi
  have checks := ((h.functions g hg).body.of_mem_all hi).checks
  rw [form] at checks
  obtain ⟨params, known, takes⟩ := checks
  cases (h.signatures found).symm.trans known
  exact takes.1.trans (List.length_map _)

namespace Sights

variable {V : List VarId} {ctx : Context} {s : State}

theorem declareParameters (params : List (Token × Ty)) :
    Sights V ctx s (declareParameters params) fun V' ps => V' = V ++ ps.map Parameter.var := by
  induction params generalizing V s with
  | nil => exact pure (List.append_nil V).symm
  | cons param params ih =>
    refine (declareVar param.1.text param.1.span param.2).bind ?_
    rintro s' _ var rfl
    refine ih.bind ?_
    rintro _ _ ps rfl
    refine pure ?_
    rw [List.map_cons, List.append_assoc]
    rfl

theorem functionBody (h : Header) : Sights [] ctx s (functionBody h) fun V' f => V' = [] ∧ f.Sees := by
  have reads : Reads (modify ({ · with rest := h.body }) : Compiler Unit) := ⟨fun _ _ => .inl ⟨_, rfl, rfl⟩⟩
  refine .read reads fun _ _ => inFrame true fun s' => (declareParameters h.params).bind ?_
  rintro s' _ params rfl
  exact (functionBlock (Level.sighted_ofRoom maxNesting)).bind fun _ _ body sees => pure sees

end Sights

theorem sees_of_compileBody {ctx : Context} {h : Header} {s s' : State} {f : Function} (hs : s.Shows [])
    (hc : compileBody ctx h s = (.ok f, s')) : s'.Shows [] ∧ f.Sees := by
  unfold compileBody at hc
  split at hc
  case h_1 f' s₁ answer =>
    cases hc
    obtain ⟨_, shows, _, rfl, sees⟩ := (Sights.functionBody h).answers hs answer
    exact ⟨shows, sees⟩
  case h_2 => cases hc

theorem sees_of_compileBodies {ctx : Context} {headers : List Header} {s s' : State} {fs : List Function}
    (hs : s.Shows []) (h : compileBodies ctx headers s = .ok (fs, s')) : ∀ f ∈ fs, f.Sees := by
  induction headers generalizing s fs with
  | nil =>
    cases h
    nofun
  | cons header headers ih =>
    unfold compileBodies at h
    split at h
    case h_1 => cases h
    case h_2 f s₁ answer =>
      obtain ⟨shows, sees⟩ := sees_of_compileBody hs answer
      cases hr : compileBodies ctx headers s₁ with
      | error e =>
        rw [hr] at h
        cases h
      | ok rest =>
        rw [hr] at h
        cases h
        exact List.forall_mem_cons.2 ⟨sees, ih shows hr⟩

theorem Program.sighted_ofTokens {id : String} {env : Environment} {tokens : List Token} {p : Program}
    (h : Program.ofTokens id env tokens = .ok p) : p.Sighted := by
  obtain ⟨D, typed⟩ := typed_ofTokens h
  have within := within_ofTokens (P := fun _ => True) (fun _ _ => trivial) h
  refine ⟨fun f hf => (within f hf).braced, ?_, typed.arity⟩
  obtain ⟨fine, fs, s, bodies, rfl⟩ := compiled_of_ofTokens h
  let anywhere : Places := ⟨fun _ => True, endSpan tokens⟩
  obtain ⟨sound, _⟩ : (outline env tokens).Sound anywhere tokens.length ∧ _ :=
    sound_outline (fun _ _ => trivial) rfl
  have idle := sound.ended.idle
  refine sees_of_compileBodies ⟨idle.fine, fun f hf => ?_⟩ bodies
  rw [idle.frames] at hf
  exact absurd hf List.not_mem_nil

end Tickwise
