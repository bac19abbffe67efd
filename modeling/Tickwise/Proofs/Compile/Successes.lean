import Tickwise.Proofs.Compile.Reads
set_option autoImplicit false

/-!
# Routines that succeed

What a routine has read when it answers, and the turns that a loop has made by then.
-/
namespace Tickwise

open Compile

def Compile.State.behind (s : State) : State := { s with rest := s.rest.tail }

namespace Compiler

variable {ctx : Context} {s s' : State}

theorem some_of_eatIf {p : Token → Bool} {t? : Option Token} (h : eatIf p ctx s = (some t?, s')) :
    (∃ t, t? = some t ∧ s.rest.head?.any p = true ∧ s' = s.behind) ∨ t? = none ∧ s' = s := by
  obtain ⟨_, _, got, h⟩ := some_of_bind h
  cases got
  split at h
  case isTrue next =>
    cases h
    obtain ⟨t, ht, _⟩ := Option.any_eq_true _ _ |>.1 next
    exact .inl ⟨t, ht, next, rfl⟩
  case isFalse =>
    cases h
    exact .inr ⟨rfl, rfl⟩

theorem some_of_expect {p : Token → Bool} {cause : CompileError.Cause} {t : Token}
    (h : expect p cause ctx s = (some t, s')) : s.rest.head?.any p = true ∧ s' = s.behind := by
  obtain ⟨t?, s₁, eaten, answer⟩ := some_of_bind h
  obtain ⟨t', rfl, next, rfl⟩ | ⟨rfl, rfl⟩ := some_of_eatIf eaten
  · cases answer
    exact ⟨next, rfl⟩
  · obtain ⟨_, _, _, answer⟩ := some_of_bind answer
    obtain ⟨_, _, _, failed⟩ := some_of_bind answer
    cases failed

theorem some_of_inFrame {α : Type} {isBlock : Bool} {c : Compiler α} {a : α}
    (h : inFrame isBlock c ctx s = (some a, s')) : ∃ s₁, c ctx { s with scopes := s.scopes.push isBlock } = (some a, s₁) ∧
      s' = { s₁ with scopes := s₁.scopes.pop } := by
  obtain ⟨answer, rfl⟩ := Prod.mk.inj h
  exact ⟨_, Prod.ext answer rfl, rfl⟩

theorem some_of_loop {σ α : Type} {start : σ} {step : σ → Compiler (σ ⊕ α)} (Q : σ → State → α → State → Prop)
    (turn : ∀ {state s r s₁}, step state ctx s = (some r, s₁) → match r with
      | .inr a => Q state s a s₁
      | .inl state' => ∀ a s', Q state' s₁ a s' → Q state s a s')
    {a : α} (h : loop start step ctx s = (some a, s')) : Q start s a s' := by
  obtain ⟨_, _, asked, run⟩ := some_of_bind h
  clear h
  cases asked
  generalize ctx.turns = turns at run
  induction turns generalizing start s with
  | zero =>
    obtain ⟨_, _, _, run⟩ := some_of_bind run
    cases run
  | succ turns ih =>
    obtain ⟨r, s₁, stepped, run⟩ := some_of_bind run
    cases r with
    | inl state => exact turn stepped _ _ (ih run)
    | inr b =>
      cases run
      exact turn stepped

end Compiler
end Tickwise
