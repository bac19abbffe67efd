import Tickwise.Proofs.Typing.Operands
set_option autoImplicit false

/-!
# Typed calls

The callee that a call is resolved to takes the arguments, each converted to its parameter's type.
-/
namespace Tickwise

/-- The type of an argument of type `arg` where it is converted to `target?`. -/
def Ty.passed (target? : Option Ty) (arg : Ty) : Ty :=
  match target? with
  | some target => target.widened arg
  | none => arg

theorem ParamType.fits_of_cost? {param : ParamType} {arg : Ty} (h : (param.cost? arg).isSome = true) :
    param.Fits (Ty.passed param.target? arg) := by
  cases param with
  | exact ty =>
    unfold cost? at h
    dsimp only at h
    split at h
    case isTrue same =>
      subst same
      exact Ty.fits_of_accepts (by simp [Ty.accepts])
    case isFalse =>
      split at h
      case isTrue accepts => exact Ty.fits_of_accepts accepts
      case isFalse => cases h
  | anyArray =>
    cases arg with
    | array elem => exact .inr ⟨elem, rfl⟩
    | null => exact .inl rfl
    | _ => cases h
  | any =>
    intro same
    subst same
    cases h

namespace Candidate

theorem foldl_none (costs : List (Option Nat)) :
    costs.foldl (fun total? cost? => total?.bind fun total => cost?.map (total + ·)) none = none := by
  induction costs with
  | nil => rfl
  | cons cost costs ih => exact ih

theorem all_of_foldl {costs : List (Option Nat)} {total? : Option Nat}
    (h : (costs.foldl (fun total? cost? => total?.bind fun total => cost?.map (total + ·))
      total?).isSome = true) : ∀ cost? ∈ costs, cost?.isSome = true := by
  induction costs generalizing total? with
  | nil => nofun
  | cons cost costs ih =>
    refine List.forall_mem_cons.2 ⟨?_, ih h⟩
    cases cost with
    | some n => rfl
    | none =>
      have none : (total?.bind fun total => Option.map (total + ·) (none : Option Nat)) = none := by
        cases total? <;> rfl
      rw [List.foldl_cons, none, foldl_none] at h
      cases h

theorem fits_of_cost? {c : Candidate} {args : List Ty} (h : (c.cost? args).isSome = true) :
    args.length = c.params.length ∧ ∀ (k : Nat) (param : ParamType) (arg : Ty),
      c.params[k]? = some param → args[k]? = some arg → (param.cost? arg).isSome = true := by
  unfold cost? at h
  split at h
  case isTrue => cases h
  case isFalse same =>
    refine ⟨(Decidable.not_not.1 same).symm, fun k param arg hp ha => ?_⟩
    refine all_of_foldl h _ (List.mem_of_getElem? (i := k) ?_)
    rw [List.getElem?_zipWith, hp, ha]

end Candidate

/-- The candidate is one of those offered, and takes the arguments. -/
def Best.Chosen (args : List Ty) (candidates : List Candidate) (best : Option Best) : Prop :=
  ∀ b, best = some b → b.candidate ∈ candidates ∧ (b.candidate.cost? args).isSome = true

theorem Best.chosen_offer {args : List Ty} {candidates : List Candidate} {best : Option Best}
    (hb : Best.Chosen args candidates best) {c : Candidate} (hc : c ∈ candidates) :
    Best.Chosen args candidates (Best.offer args best c) := by
  unfold Best.offer
  split
  case h_1 => exact hb
  case h_2 cost takes =>
    intro b h
    cases h
    exact ⟨hc, by rw [takes]; rfl⟩
  case h_3 cost b takes =>
    split
    · exact hb
    · split
      · intro b' h
        cases h
        exact hb b rfl
      · intro b' h
        cases h
        exact ⟨hc, by rw [takes]; rfl⟩

theorem Best.chosen_foldl {args : List Ty} {all candidates : List Candidate} {best : Option Best}
    (hb : Best.Chosen args all best) (hc : ∀ c ∈ candidates, c ∈ all) :
    Best.Chosen args all (candidates.foldl (Best.offer args) best) := by
  induction candidates generalizing best with
  | nil => exact hb
  | cons c candidates ih =>
    obtain ⟨first, rest⟩ := List.forall_mem_cons.1 hc
    exact ih (Best.chosen_offer hb first) rest

theorem mem_of_resolve {candidates : List Candidate} {args : List Ty} {r : Resolved}
    (h : resolve candidates args = .resolved r) :
    ∃ c ∈ candidates, (c.cost? args).isSome = true ∧ r = c.resolved := by
  unfold resolve at h
  split at h
  case h_1 b found =>
    have none : Best.Chosen args candidates none := nofun
    obtain ⟨mem, takes⟩ := Best.chosen_foldl none (fun _ => id) b found
    split at h
    · cases h
    · cases h
      exact ⟨b.candidate, mem, takes, rfl⟩
  case h_2 => split at h <;> cases h

open Compile Compiler

def Declarations.Resolves (D : Declarations) (r : Resolved) (args : List Ty) : Prop :=
  r.conversions.length = args.length ∧ ∀ instrs : List Instr,
    instrs.map Instr.ty = List.zipWith (fun arg target? => Ty.passed target? arg) args r.conversions →
    ∀ ret, D.Checks ret (.call r.callee instrs r.ret)

theorem Declarations.Resolves.mono {D D' : Declarations} (hD : D.Le D') {r : Resolved}
    {args : List Ty} (h : D.Resolves r args) : D'.Resolves r args :=
  ⟨h.1, fun instrs tys ret => (h.2 instrs tys ret).mono hD⟩

theorem Declarations.takes_of_passed {α : Type} {fits : α → Ty → Prop} {params : List α}
    {args : List Ty} {instrs : List Instr} {targets : List (Option Ty)}
    (argsLength : args.length = params.length) (length : targets.length = params.length)
    (tys : instrs.map Instr.ty = List.zipWith (fun arg target? => Ty.passed target? arg) args targets)
    (h : ∀ (k : Nat) (param : α) (target? : Option Ty) (arg : Ty), params[k]? = some param →
      targets[k]? = some target? → args[k]? = some arg → fits param (Ty.passed target? arg)) :
    Declarations.Takes fits params instrs := by
  constructor
  · have lengths := congrArg List.length tys
    simp only [List.length_map, List.length_zipWith] at lengths
    omega
  · intro k param i hp hi
    have ty : (instrs.map Instr.ty)[k]? = some i.ty := by rw [List.getElem?_map, hi]; rfl
    rw [tys, List.getElem?_zipWith_eq_some] at ty
    obtain ⟨arg, target?, ha, ht, passed⟩ := ty
    exact passed ▸ h k param target? arg hp ht ha

theorem mem_overloads {r : NativeRegistry} {name : String} {id : NativeId} {f : NativeFn}
    (h : (id, f) ∈ r.overloads name) : r.get? id = some f := by
  unfold NativeRegistry.overloads at h
  obtain ⟨⟨g, k⟩, mem, same⟩ := List.mem_map.1 h
  cases same
  exact List.mem_zipIdx_iff_getElem?.1 (List.mem_filter.1 mem).1

theorem Declarations.resolves {D : Declarations} {ctx : Context} {s : State} {name : String}
    {args : List Ty} {r : Resolved} (hD : D.Agrees ctx s)
    (h : resolve (s.scopes.candidates name) args = .resolved r) : D.Resolves r args := by
  obtain ⟨c, mem, takes, rfl⟩ := mem_of_resolve h
  obtain ⟨length, fits⟩ := Candidate.fits_of_cost? takes
  have targetsLength : (c.params.map ParamType.target?).length = c.params.length := List.length_map ..
  refine ⟨targetsLength.trans length.symm, fun instrs tys ret => ?_⟩
  have taken : Declarations.Takes ParamType.Fits c.params instrs := by
    refine takes_of_passed length targetsLength tys fun k param target? arg hp ht ha => ?_
    rw [List.getElem?_map, hp] at ht
    cases ht
    exact ParamType.fits_of_cost? (fits k param arg hp ha)
  rcases List.mem_append.1 mem with mem | mem
  · obtain ⟨f, hf, rfl⟩ := List.mem_map.1 mem
    refine ⟨f.params, hD.functions f (List.mem_filter.1 hf).1, ?_, fun k param i hp hi => ?_⟩
    · exact taken.1.trans (List.length_map ..)
    · exact taken.2 k (.exact param) i (by
        change (f.params.map ParamType.exact)[k]? = _
        rw [List.getElem?_map, hp]
        rfl) hi
  · obtain ⟨⟨id, f⟩, hf, rfl⟩ := List.mem_map.1 mem
    exact ⟨f, (hD.natives id).symm.trans (mem_overloads hf), rfl, taken⟩

namespace Gives

variable {ctx : Context} {K : Known}

theorem resolveCall (name : String) (span : Span) (args : List Ty) :
    Gives ctx K (onScopes? fun s => s.resolveCall name span args)
      fun K' r => ∀ D, K' = some D → D.Resolves r args := by
  refine ⟨fun {s r s'} hs hc => ?_⟩
  change ((s.scopes.resolveCall name span args).1,
    { s with scopes := (s.scopes.resolveCall name span args).2 }) = _ at hc
  unfold ScopeStack.resolveCall at hc
  split at hc
  case h_1 r resolved =>
    cases hc
    exact ⟨K, .refl K, hs, fun D hD => Declarations.resolves (hs D hD) resolved⟩
  all_goals cases hc

theorem widenArgs {args : List Operand} (targets : List (Option Ty))
    (h : ∀ a ∈ args, K.Yields ctx.ret a) :
    Gives ctx K (Compiler.widenArgs args targets) fun K' instrs =>
      (∀ i ∈ instrs, K'.Typed ctx.ret i) ∧ instrs.map Instr.ty =
        List.zipWith (fun arg target? => Ty.passed target? arg) (args.map Operand.ty) targets := by
  induction args generalizing K targets with
  | nil => exact .pure ⟨nofun, rfl⟩
  | cons arg args ih =>
    obtain ⟨first, rest⟩ := List.forall_mem_cons.1 h
    cases targets with
    | nil => exact .pure ⟨nofun, rfl⟩
    | cons target? targets =>
      have cont : ∀ K₁ i, K.Le K₁ → K₁.Typed ctx.ret i ∧ i.ty = Ty.passed target? arg.ty →
          Gives ctx K₁ (do return i :: (← Compiler.widenArgs args targets)) fun K' instrs =>
            (∀ i ∈ instrs, K'.Typed ctx.ret i) ∧ instrs.map Instr.ty =
              List.zipWith (fun arg target? => Ty.passed target? arg)
                ((arg :: args).map Operand.ty) (target? :: targets) := by
        rintro K₁ i le ⟨typed, ty⟩
        refine (ih targets fun a ha => (rest a ha).mono le).bind ?_
        rintro K₂ instrs le' ⟨all, tys⟩
        refine .pure ⟨List.forall_mem_cons.2 ⟨typed.mono le', all⟩, ?_⟩
        rw [List.map_cons, List.map_cons, List.zipWith_cons_cons, ty, tys]
      cases target? with
      | some target => exact (Gives.widen first target).bind cont
      | none => exact .pureBind (cont K arg.instr (.refl K) ⟨first.typed, first.ty⟩)

end Gives
end Tickwise
