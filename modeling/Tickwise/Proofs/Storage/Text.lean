import Mathlib.Data.Fintype.Card
import Mathlib.Data.Fintype.Prod
import Mathlib.Order.Monotone.Basic
import Tickwise.Proofs.Storage.Alike
import Tickwise.Value.Operator
set_option autoImplicit false

/-!
# Texts of alike variables

What a slot is written as depends on its content alone, not on the storage that the content is in or on how
much other storage there is: the references that a text is given suffice for every slot that has one.
-/
namespace Tickwise

theorem mapM_congr_of_forall₂ {α β γ : Type} {P : α → β → Prop} {f : α → Option γ} {g : β → Option γ}
    {as : List α} {bs : List β} (h : as.Forall₂ P bs) (same : ∀ a b, P a b → f a = g b) :
    as.mapM f = bs.mapM g := by
  induction h with
  | nil => rfl
  | cons hp _ ih => rw [List.mapM_cons, List.mapM_cons, same _ _ hp, ih]

theorem isSome_mapM {α β : Type} (f : α → Option β) (as : List α) :
    (as.mapM f).isSome = true ↔ ∀ a ∈ as, (f a).isSome = true := by
  induction as with
  | nil => simp
  | cons a as ih =>
    rw [List.mapM_cons, List.forall_mem_cons, ← ih]
    cases f a <;> cases as.mapM f <;> simp

theorem mapM_eq_some_of_imp {α β : Type} {f g : α → Option β} {as : List α} {bs : List β}
    (h : as.mapM f = some bs) (imp : ∀ a b, f a = some b → g a = some b) : as.mapM g = some bs := by
  induction as generalizing bs with
  | nil => exact h
  | cons a as ih =>
    rw [List.mapM_cons] at h ⊢
    cases ha : f a with
    | none => simp [ha] at h
    | some b =>
      cases hs : as.mapM f with
      | none => simp [ha, hs] at h
      | some rest =>
        rw [imp a b ha, ih hs]
        simpa [ha, hs] using h

theorem Value.Alike.scalarText? {ρ σ : Type} {R : ρ → σ → Prop} {a : Value ρ} {b : Value σ}
    (alike : a.Alike R b) : a.scalarText? = b.scalarText? := by
  cases alike <;> rfl

namespace Heap

variable {h k : Heap} {R : Ref → Ref → Prop} {v w : Variable}

theorem render_alike (stores : h.Alike R k) (alike : v.Alike R w) (fuel : Nat) (insideObject : Bool) :
    h.render fuel insideObject v = k.render fuel insideObject w := by
  induction fuel generalizing v w insideObject with
  | zero => exact alike.value.scalarText?
  | succ fuel ih =>
    have value := alike.value
    unfold render
    generalize v.value = a at value
    generalize w.value = b at value
    cases value with
    | @array r q related =>
      have parts := mapM_congr_of_forall₂ (stores r q related) fun v w alike => ih alike insideObject
      simp only [parts]
    | @object cls r q related =>
      have parts : (h.elements r).toList.mapM (fun field => do
            return field.name.getD "?" ++ "=" ++ (← h.render fuel true field)) =
          (k.elements q).toList.mapM fun field => do
            return field.name.getD "?" ++ "=" ++ (← k.render fuel true field) :=
        mapM_congr_of_forall₂ (stores r q related) fun v w alike => by rw [ih alike true, alike.name]
      simp only [parts]
    | _ => rfl

theorem render_succ {fuel : Nat} {insideObject : Bool} {text : String}
    (rendered : h.render fuel insideObject v = some text) :
    h.render (fuel + 1) insideObject v = some text := by
  induction fuel generalizing v insideObject text with
  | zero =>
    have scalar : v.value.scalarText? = some text := rendered
    unfold render
    cases hv : v.value with
    | array r => simp [hv, Value.scalarText?] at scalar
    | object cls r => simp [hv, Value.scalarText?] at scalar
    | _ => simpa [hv] using scalar
  | succ fuel ih =>
    unfold render at rendered ⊢
    cases hv : v.value with
    | array r =>
      simp only [hv] at rendered ⊢
      obtain ⟨parts, found, last⟩ := Option.bind_eq_some_iff.1 rendered
      cases last
      rw [mapM_eq_some_of_imp found fun _ _ => ih]
      rfl
    | object cls r =>
      simp only [hv] at rendered ⊢
      split at rendered
      case isTrue inside =>
        rw [if_pos inside]
        exact rendered
      case isFalse outside =>
        rw [if_neg outside]
        obtain ⟨parts, found, last⟩ := Option.bind_eq_some_iff.1 rendered
        cases last
        have more := mapM_eq_some_of_imp found (g := fun field => do
            return field.name.getD "?" ++ "=" ++ (← h.render (fuel + 1) true field)) fun field part hp => by
          obtain ⟨inner, found, last⟩ := Option.bind_eq_some_iff.1 hp
          cases last
          rw [ih found]
          rfl
        rw [more]
        rfl
    | _ => simpa [hv] using rendered

theorem render_of_le {fuel more : Nat} (le : fuel ≤ more) {insideObject : Bool} {text : String}
    (rendered : h.render fuel insideObject v = some text) :
    h.render more insideObject v = some text := by
  induction le with
  | refl => exact rendered
  | step _ ih => exact render_succ ih

def legible (h : Heap) (fuel : Nat) (insideObject : Bool) (r : Ref) : Bool :=
  (h.elements r).toList.all fun e => (h.render fuel insideObject e).isSome

/-- The storage whose texts need no more than so many references. -/
def legibles (h : Heap) (fuel : Nat) : Finset (Bool × Fin h.size) :=
  Finset.univ.filter fun key => h.legible fuel key.1 key.2 = true

theorem legible_of_size_le {fuel : Nat} {insideObject : Bool} {r : Ref} (outside : h.size ≤ r) :
    h.legible fuel insideObject r = true := by
  have none : h.elements r = #[] := by
    rw [elements_eq, Array.getElem?_eq_none outside]
    rfl
  simp [legible, none]

theorem legible_succ {fuel : Nat} {insideObject : Bool} {r : Ref}
    (all : h.legible fuel insideObject r = true) : h.legible (fuel + 1) insideObject r = true := by
  refine List.all_eq_true.2 fun e he => ?_
  obtain ⟨text, rendered⟩ := Option.isSome_iff_exists.1 (List.all_eq_true.1 all e he)
  rw [render_succ rendered]
  rfl

theorem isSome_render_succ (fuel : Nat) (insideObject : Bool) (v : Variable) :
    (h.render (fuel + 1) insideObject v).isSome = match v.value with
      | .array r => h.legible fuel insideObject r
      | .object _ r => insideObject || h.legible fuel true r
      | _ => true := by
  have bound {α β : Type} (o : Option α) (f : α → β) :
      (do return f (← o) : Option β).isSome = o.isSome := by
    cases o <;> rfl
  have all (f : Variable → Option String) (vs : List Variable) :
      (vs.mapM f).isSome = vs.all fun v => (f v).isSome := by
    rw [Bool.eq_iff_iff, isSome_mapM, List.all_eq_true]
  unfold render
  cases v.value with
  | array r => exact (bound _ _).trans (all _ _)
  | object cls r =>
    cases insideObject with
    | true => rfl
    | false =>
      refine ((bound _ _).trans (all _ _)).trans ?_
      simp only [bound]
      rfl
  | _ => rfl

theorem legibles_succ (fuel : Nat) : h.legibles fuel ⊆ h.legibles (fuel + 1) := by
  intro key hk
  simp only [legibles, Finset.mem_filter, Finset.mem_univ, true_and] at hk ⊢
  exact legible_succ hk

theorem legible_eq_of_legibles {fuel more : Nat} (same : h.legibles fuel = h.legibles more)
    (insideObject : Bool) (r : Ref) : h.legible fuel insideObject r = h.legible more insideObject r := by
  by_cases inside : r < h.size
  · have key := Finset.ext_iff.1 same (insideObject, ⟨r, inside⟩)
    simp only [legibles, Finset.mem_filter, Finset.mem_univ, true_and] at key
    exact Bool.eq_iff_iff.2 key
  · have outside : h.size ≤ r := Nat.le_of_not_lt inside
    rw [legible_of_size_le outside, legible_of_size_le outside]

theorem legibles_stable {fuel : Nat} (same : h.legibles fuel = h.legibles (fuel + 1)) :
    h.legibles (fuel + 1) = h.legibles (fuel + 2) := by
  have texts (insideObject : Bool) (v : Variable) :
      (h.render (fuel + 1) insideObject v).isSome = (h.render (fuel + 2) insideObject v).isSome := by
    rw [isSome_render_succ, isSome_render_succ]
    simp only [legible_eq_of_legibles same]
  unfold legibles legible
  simp only [texts]

/-- Storage that has a text at all has one of as many references as there is storage, twice. -/
theorem legibles_eq {fuel : Nat} (enough : 2 * h.size ≤ fuel) :
    h.legibles fuel = h.legibles (2 * h.size) := by
  have grows : Monotone h.legibles := monotone_nat_of_le_succ legibles_succ
  have bound (fuel : Nat) : (h.legibles fuel).card ≤ 2 * h.size := by
    have all := Finset.card_le_univ (h.legibles fuel)
    rwa [Fintype.card_prod, Fintype.card_bool, Fintype.card_fin] at all
  have stable (fuel : Nat) (same : (h.legibles fuel).card = (h.legibles (fuel + 1)).card) :
      (h.legibles (fuel + 1)).card = (h.legibles (fuel + 2)).card := by
    rw [legibles_stable (Finset.eq_of_subset_of_card_le (legibles_succ fuel) (Nat.le_of_eq same.symm))]
  have card := Nat.stabilises_of_monotone (fun _ _ le => Finset.card_le_card (grows le)) bound stable enough
  exact (Finset.eq_of_subset_of_card_le (grows enough) (Nat.le_of_eq card)).symm

theorem render_textFuel {fuel : Nat} {insideObject : Bool} {text : String}
    (rendered : h.render fuel insideObject v = some text) :
    h.render h.textFuel insideObject v = some text := by
  have most := render_of_le (Nat.le_add_right fuel h.textFuel) rendered
  have enough : 2 * h.size ≤ fuel + 2 * h.size := Nat.le_add_left ..
  have some : (h.render h.textFuel insideObject v).isSome = true := by
    have given : (h.render (fuel + 2 * h.size + 1) insideObject v).isSome = true := by
      change (h.render (fuel + h.textFuel) insideObject v).isSome = true
      rw [most]
      rfl
    rw [isSome_render_succ] at given
    change (h.render (2 * h.size + 1) insideObject v).isSome = true
    rw [isSome_render_succ]
    simpa only [legible_eq_of_legibles (legibles_eq enough)] using given
  obtain ⟨own, found⟩ := Option.isSome_iff_exists.1 some
  have same := render_of_le (Nat.le_add_left h.textFuel fuel) found
  rw [most] at same
  rw [found, same]

theorem text?_of_scalar (scalar : v.value.scalarText?.isSome = true) : h.text? v = v.value.scalarText? := by
  unfold text? textFuel render
  cases hv : v.value <;> simp_all [Value.scalarText?]

theorem crash?_of_text {ty : Ty} (text : (h.text? v).isSome = true) : h.crash? ty v = none := by
  unfold crash?
  rw [if_neg]
  rintro ⟨_, none⟩
  rw [none] at text
  cases text

theorem text?_of_crash? {ty : Ty} {c : Crash} (crashes : h.crash? ty v = some c) : h.text? v = none := by
  unfold crash? at crashes
  split at crashes
  case isTrue both => exact both.2
  case isFalse => cases crashes

theorem crash?_of_ne {ty : Ty} (other : ty ≠ .string) : h.crash? ty v = none := if_neg fun both => other both.1

theorem crash?_of_scalar {ty : Ty} (scalar : v.value.scalarText?.isSome = true) : h.crash? ty v = none :=
  crash?_of_text (by rw [text?_of_scalar scalar]; exact scalar)

theorem scalar_of_binary {op : BinaryOp} {a b c : Variable} {ty : Ty} (folds : h.binary op a b ty = .ok c) :
    c.value.scalarText?.isSome = true := by
  cases ty <;> simp only [binary, bind, Except.bind, pure, Except.pure] at folds <;> (repeat' split at folds) <;>
    cases folds <;> rfl

theorem text?_alike (stores : h.Alike R k) (alike : v.Alike R w) : h.text? v = k.text? w := by
  have rendered (fuel : Nat) : h.render fuel false v = k.render fuel false w :=
    render_alike stores alike fuel false
  unfold text?
  rw [rendered]
  cases first : k.render h.textFuel false w with
  | some text => rw [render_textFuel first]
  | none =>
    cases second : k.render k.textFuel false w with
    | none => rfl
    | some text =>
      rw [← rendered] at second
      have both := render_textFuel second
      rw [rendered, first] at both
      cases both

theorem text_alike (stores : h.Alike R k) (alike : v.Alike R w) : h.text v = k.text w :=
  congrArg (·.getD "") (text?_alike stores alike)

theorem crash?_alike (stores : h.Alike R k) (alike : v.Alike R w) (ty : Ty) : h.crash? ty v = k.crash? ty w := by
  unfold crash?
  rw [text?_alike stores alike]

end Heap
end Tickwise
