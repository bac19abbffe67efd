import Tickwise.Proofs.Compile.Reads
import Tickwise.Proofs.Typing.Instructions
set_option autoImplicit false

/-!
# What compile routines answer

A routine is followed with what is known of the declarations: nothing, or all of those in sight. It
answers typed instructions relative to what is known behind it, which may be more.
-/
namespace Tickwise

open Compile Compiler

/-- The declarations agree with what a routine sees, and have no variables but those declared so far. -/
structure Declarations.Agrees (D : Declarations) (ctx : Context) (s : State) : Prop where
  classes : ∀ name, ctx.class? name = D.class? name
  natives : ∀ id, s.scopes.natives.get? id = D.native? id
  functions : ∀ f ∈ s.scopes.functions, D.function? f.id = some (f.params, f.ret)
  vars : ∀ f ∈ s.scopes.frames, ∀ v ∈ f.vars, D.var? v.id = some v.ty
  fresh : ∀ id, s.scopes.nextVar ≤ id → D.var? id = none

/-- What is known of the declarations: nothing, or all of them. -/
abbrev Known := Option Declarations

namespace Known

/-- Behind a routine no less is known than in front of it. -/
def Le : Known → Known → Prop
  | none, K => K = none
  | some D, K => ∃ D', K = some D' ∧ D.Le D'

def Agrees (K : Known) (ctx : Context) (s : State) : Prop := ∀ D, K = some D → D.Agrees ctx s

def Checks (K : Known) (ret : Ty) (form : Form Instr) : Prop := ∀ D, K = some D → D.Checks ret form

def Typed (K : Known) (ret : Ty) (i : Instr) : Prop := ∀ D, K = some D → i.Typed D ret

theorem Agrees.of_scopes {K : Known} {ctx : Context} {s s' : State} (h : K.Agrees ctx s)
    (same : s'.scopes = s.scopes) : K.Agrees ctx s' := by
  intro D hD
  obtain ⟨classes, natives, functions, vars, fresh⟩ := h D hD
  rw [← same] at natives functions vars fresh
  exact ⟨classes, natives, functions, vars, fresh⟩

theorem Le.refl (K : Known) : K.Le K := by
  cases K with
  | none => rfl
  | some D => exact ⟨D, rfl, .refl D⟩

theorem Le.trans {K K' K'' : Known} (h : K.Le K') (h' : K'.Le K'') : K.Le K'' := by
  cases K with
  | none =>
    cases h
    exact h'
  | some D =>
    obtain ⟨D', rfl, le⟩ := h
    obtain ⟨D'', rfl, le'⟩ := h'
    exact ⟨D'', rfl, le.trans le'⟩

theorem Le.all {K K' : Known} (h : K.Le K') {P : Declarations → Prop}
    (mono : ∀ {D D'}, Declarations.Le D D' → P D → P D') (hK : ∀ D, K = some D → P D) :
    ∀ D, K' = some D → P D := by
  intro D hD
  cases K with
  | none =>
    cases h
    cases hD
  | some D₀ =>
    obtain ⟨D', rfl, le⟩ := h
    cases hD
    exact mono le (hK D₀ rfl)

theorem Typed.mono {K K' : Known} (hK : K.Le K') {ret : Ty} {i : Instr} (h : K.Typed ret i) :
    K'.Typed ret i :=
  hK.all Instr.Typed.mono h

theorem Typed.intro {K : Known} {ret : Ty} {i : Instr} (checks : K.Checks ret i.form)
    (parts : ∀ c ∈ i.children, K.Typed ret c) : K.Typed ret i :=
  fun D hD => .intro (checks D hD) fun c hc => parts c hc D hD

theorem Typed.part {K : Known} {ret : Ty} {i c : Instr} (h : K.Typed ret i) (hc : c ∈ i.children) :
    K.Typed ret c :=
  fun D hD => (h D hD).part hc

end Known

/-- From what is known in front of a routine, its answers satisfy `Q` with what is known behind it. -/
structure Gives {α : Type} (ctx : Context) (K : Known) (c : Compiler α) (Q : Known → α → Prop) :
    Prop where
  answers : ∀ {s a s'}, K.Agrees ctx s → c ctx s = (some a, s') →
    ∃ K', K.Le K' ∧ K'.Agrees ctx s' ∧ Q K' a

namespace Gives

variable {α β σ : Type} {ctx : Context} {K : Known} {c : Compiler α} {P : Known → α → Prop}
  {Q : Known → β → Prop}

theorem pure {a : α} (h : P K a) : Gives ctx K (pure a) P := by
  refine ⟨fun {s a' s'} hs hc => ?_⟩
  cases hc
  exact ⟨K, .refl K, hs, h⟩

theorem fail (cause : CompileError.Cause) (span : Span) : Gives ctx K (fail cause span) P :=
  ⟨fun _ hc => by cases hc⟩

theorem bind {f : α → Compiler β} (first : Gives ctx K c P)
    (second : ∀ K' a, K.Le K' → P K' a → Gives ctx K' (f a) Q) : Gives ctx K (c >>= f) Q := by
  refine ⟨fun {s b s'} hs hc => ?_⟩
  obtain ⟨a, s₁, hc, hf⟩ := some_of_bind hc
  obtain ⟨K₁, le, hs₁, ha⟩ := first.answers hs hc
  obtain ⟨K₂, le', hs₂, hb⟩ := (second K₁ a le ha).answers hs₁ hf
  exact ⟨K₂, le.trans le', hs₂, hb⟩

theorem map {f : α → β} (h : Gives ctx K c P) :
    Gives ctx K (f <$> c) fun K' b => ∃ a, b = f a ∧ P K' a := by
  refine ⟨fun {s b s'} hs hc => ?_⟩
  obtain ⟨a, hc', rfl⟩ := some_of_map hc
  obtain ⟨K', le, hs', ha⟩ := h.answers hs hc'
  exact ⟨K', le, hs', a, rfl, ha⟩

theorem imp {P' : Known → α → Prop} (h : Gives ctx K c P) (hP : ∀ K' a, K.Le K' → P K' a → P' K' a) :
    Gives ctx K c P' := by
  refine ⟨fun hs hc => ?_⟩
  obtain ⟨K', le, hs', ha⟩ := h.answers hs hc
  exact ⟨K', le, hs', hP K' _ le ha⟩

theorem reads (h : Reads c) : Gives ctx K c fun K' _ => K' = K :=
  ⟨fun hs hc => ⟨K, .refl K, hs.of_scopes (h.scopes hc), rfl⟩⟩

theorem read {f : α → Compiler β} (h : Reads c) (second : ∀ a, Gives ctx K (f a) Q) :
    Gives ctx K (c >>= f) Q :=
  (reads h).bind fun K' a _ same => by
    subst same
    exact second a

theorem missing (cause : CompileError.Cause) : Gives ctx K (Compiler.missing cause) P :=
  .read .get fun _ => .read .here fun _ => .fail _ _

theorem ask {f : Context → Compiler β} (h : Gives ctx K (f ctx) Q) :
    Gives ctx K ((MonadReader.read : Compiler Context) >>= f) Q := by
  refine ⟨fun {s b s'} hs hc => ?_⟩
  rw [bind_apply] at hc
  exact h.answers hs hc

theorem inspect {f : State → Compiler β} (h : ∀ s, K.Agrees ctx s → Gives ctx K (f s) Q) :
    Gives ctx K ((get : Compiler State) >>= f) Q := by
  refine ⟨fun {s b s'} hs hc => ?_⟩
  rw [bind_apply] at hc
  exact (h s hs).answers hs hc

theorem knowing (h : (∀ D, K = some D → ∀ name, ctx.class? name = D.class? name) → Gives ctx K c P) :
    Gives ctx K c P :=
  ⟨fun hs hc => (h fun D hD => (hs D hD).classes).answers hs hc⟩

theorem pureBind {a : α} {f : α → Compiler β} (h : Gives ctx K (f a) Q) :
    Gives ctx K ((Pure.pure a : Compiler α) >>= f) Q := by
  refine ⟨fun {s b s'} hs hc => ?_⟩
  rw [bind_apply] at hc
  exact h.answers hs hc

theorem failBind (cause : CompileError.Cause) (span : Span) (f : α → Compiler β) :
    Gives ctx K ((Compiler.fail cause span : Compiler α) >>= f) Q := by
  refine ⟨fun {s b s'} hs hc => ?_⟩
  rw [bind_apply] at hc
  cases hc

theorem ite {q : Prop} [Decidable q] {d : Compiler α} (hc : q → Gives ctx K c P)
    (hd : ¬ q → Gives ctx K d P) : Gives ctx K (if q then c else d) P := by
  split
  case isTrue h => exact hc h
  case isFalse h => exact hd h

theorem iterate {step : σ → Compiler (σ ⊕ α)} {I : Known → σ → Prop}
    (hs : ∀ K' state, K.Le K' → I K' state → Gives ctx K' (step state) fun K'' r =>
      match r with
      | .inl state => I K'' state
      | .inr a => P K'' a) (turns : Nat) :
    ∀ {K' state}, K.Le K' → I K' state → Gives ctx K' (iterate step turns state) P := by
  induction turns with
  | zero => exact fun _ _ => .ask (.fail ..)
  | succ turns ih =>
    intro K' state le h
    refine (hs K' state le h).bind fun K'' r le' hr => ?_
    cases r with
    | inl state => exact ih (le.trans le') hr
    | inr a => exact .pure hr

theorem loop {start : σ} {step : σ → Compiler (σ ⊕ α)} (I : Known → σ → Prop) (h : I K start)
    (hs : ∀ K' state, K.Le K' → I K' state → Gives ctx K' (step state) fun K'' r =>
      match r with
      | .inl state => I K'' state
      | .inr a => P K'' a) : Gives ctx K (loop start step) P :=
  .ask (iterate hs ctx.turns (.refl K) h)

theorem commaList (mono : ∀ {K K' a}, Known.Le K K' → P K a → P K' a)
    (h : ∀ K', K.Le K' → Gives ctx K' c P) :
    Gives ctx K (commaList c) fun K' as => ∀ a ∈ as, P K' a := by
  refine .loop (fun K' as => ∀ a ∈ as, P K' a) nofun fun K' as le has => ?_
  refine (h K' le).bind fun K'' a le' ha => ?_
  have all : ∀ b ∈ a :: as, P K'' b :=
    List.forall_mem_cons.2 ⟨ha, fun b hb => mono le' (has b hb)⟩
  refine .read (.eatIf _) fun comma => .ite (fun _ => .pure all) fun _ => .pure fun b hb => ?_
  exact all b (List.mem_reverse.1 hb)

theorem inFrame (isBlock : Bool) (h : Gives ctx K c P) : Gives ctx K (inFrame isBlock c) P := by
  refine ⟨fun {s a s'} hs hc => ?_⟩
  have inside : K.Agrees ctx { s with scopes := s.scopes.push isBlock } := fun D hD => by
    obtain ⟨classes, natives, functions, vars, fresh⟩ := hs D hD
    exact ⟨classes, natives, functions, List.forall_mem_cons.2 ⟨nofun, vars⟩, fresh⟩
  unfold Compiler.inFrame at hc
  generalize hr : c ctx { s with scopes := s.scopes.push isBlock } = r at hc
  obtain ⟨a?, s₁⟩ := r
  cases hc
  obtain ⟨K', le, hs₁, ha⟩ := h.answers inside hr
  refine ⟨K', le, fun D hD => ?_, ha⟩
  obtain ⟨classes, natives, functions, vars, fresh⟩ := hs₁ D hD
  exact ⟨classes, natives, functions, fun f hf => vars f (List.mem_of_mem_tail hf), fresh⟩

theorem node {form : Form Instr} (span : Span) (checks : K.Checks ctx.ret form)
    (parts : ∀ c ∈ form.children, K.Typed ctx.ret c) :
    Gives ctx K (node span form) fun K' i => (∃ id, i = ⟨id, span, form⟩) ∧ K'.Typed ctx.ret i := by
  refine ⟨fun {s i s'} hs hc => ?_⟩
  cases hc
  exact ⟨K, .refl K, hs.of_scopes rfl, ⟨s.nextNode, rfl⟩, .intro checks parts⟩

end Gives
end Tickwise
