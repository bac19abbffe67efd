import Tickwise.Proofs.Codec.Planting
import Tickwise.Proofs.Storage.Mirror
set_option autoImplicit false

/-!
# Pairing references

Variables that show the same trees lead to their storage in the same ways, so the references that are met
pair up. Where neither side meets one twice the pairs are one to one, and one heap mirrors the other.
-/
namespace Tickwise

section

variable {α β γ δ : Type} {P : α → β → Prop} {as : List α} {bs : List β}

theorem map_flatMap_zip_left (h : as.Forall₂ P bs) {F : α × β → List γ} {f : α → List δ} {g : γ → δ}
    (same : ∀ a b, P a b → (F (a, b)).map g = f a) : ((as.zip bs).flatMap F).map g = as.flatMap f := by
  induction h with
  | nil => rfl
  | cons hp _ ih => rw [List.zip_cons_cons, List.flatMap_cons, List.map_append, same _ _ hp, ih, List.flatMap_cons]

theorem map_flatMap_zip_right (h : as.Forall₂ P bs) {F : α × β → List γ} {f : β → List δ} {g : γ → δ}
    (same : ∀ a b, P a b → (F (a, b)).map g = f b) : ((as.zip bs).flatMap F).map g = bs.flatMap f := by
  induction h with
  | nil => rfl
  | cons hp _ ih => rw [List.zip_cons_cons, List.flatMap_cons, List.map_append, same _ _ hp, ih, List.flatMap_cons]

end

namespace Heap

/-- Two variables hold the same in storage of two heaps, nested less than `depth` deep. -/
def Twins (h k : Heap) : (depth : Nat) → Variable → Variable → Prop
  | 0, _, _ => False
  | depth + 1, v, w =>
    v.Alike (fun r q => List.Forall₂ (Twins h k depth) (h.elements r).toList (k.elements q).toList) w

/-- The references that two variables lead to in the same ways. -/
def pairs (h k : Heap) : (depth : Nat) → Variable → Variable → List (Ref × Ref)
  | 0, _, _ => []
  | depth + 1, v, w =>
    match v.value.storage?, w.value.storage? with
    | some r, some q =>
      (r, q) :: ((h.elements r).toList.zip (k.elements q).toList).flatMap fun e => pairs h k depth e.1 e.2
    | _, _ => []

variable {h k : Heap} {depth : Nat} {v w : Variable} {t : Tree} {R : Ref → Ref → Prop}

theorem twins_of_shows (left : h.Shows depth v t) (right : k.Shows depth w t) : Twins h k depth v w := by
  induction depth generalizing v w t with
  | zero => exact left.elim
  | succ depth ih =>
    have through := Slot.Alike.comp left (Slot.Alike.flip right)
    exact through.mono fun r q _ _ ⟨ts, hr, hq⟩ => forall₂_comp_flip hr hq fun _ _ _ => ih

namespace Twins

theorem storage (twins : Twins h k (depth + 1) v w) :
    v.value.storage? = none ∧ w.value.storage? = none ∨
      ∃ r q, v.value.storage? = some r ∧ w.value.storage? = some q ∧
        List.Forall₂ (Twins h k depth) (h.elements r).toList (k.elements q).toList := by
  have value := Slot.Alike.value twins
  generalize v.value = a at value
  generalize w.value = b at value
  cases value with
  | array slots => exact .inr ⟨_, _, rfl, rfl, slots⟩
  | object cls slots => exact .inr ⟨_, _, rfl, rfl, slots⟩
  | _ => exact .inl ⟨rfl, rfl⟩

theorem pairs_of_storage {r q : Ref} (hr : v.value.storage? = some r) (hq : w.value.storage? = some q) :
    pairs h k (depth + 1) v w =
      (r, q) :: ((h.elements r).toList.zip (k.elements q).toList).flatMap fun e => pairs h k depth e.1 e.2 := by
  simp only [pairs, hr, hq]

theorem map_fst_pairs (twins : Twins h k depth v w) : (pairs h k depth v w).map Prod.fst = h.refs depth v := by
  induction depth generalizing v w with
  | zero => exact twins.elim
  | succ depth ih =>
    rcases twins.storage with ⟨hv, hw⟩ | ⟨r, q, hr, hq, slots⟩
    · simp only [pairs, refs, hv, List.map_nil]
    · rw [pairs_of_storage hr hq, refs_of_storage hr, List.map_cons, map_flatMap_zip_left slots fun _ _ => ih]

theorem map_snd_pairs (twins : Twins h k depth v w) : (pairs h k depth v w).map Prod.snd = k.refs depth w := by
  induction depth generalizing v w with
  | zero => exact twins.elim
  | succ depth ih =>
    rcases twins.storage with ⟨hv, hw⟩ | ⟨r, q, hr, hq, slots⟩
    · simp only [pairs, refs, hv, hw, List.map_nil]
    · rw [pairs_of_storage hr hq, refs_of_storage hq, List.map_cons, map_flatMap_zip_right slots fun _ _ => ih]

theorem alike (twins : Twins h k depth v w) (related : ∀ e ∈ pairs h k depth v w, R e.1 e.2) : v.Alike R w := by
  cases depth with
  | zero => exact twins.elim
  | succ depth =>
    refine Slot.Alike.mono twins fun r q hr hq _ => ?_
    rw [pairs_of_storage hr hq] at related
    exact related (r, q) List.mem_cons_self

theorem entries {r q : Ref} (twins : Twins h k depth v w) (paired : (r, q) ∈ pairs h k depth v w)
    (related : ∀ e ∈ pairs h k depth v w, R e.1 e.2) :
    List.Forall₂ (Slot.Alike R) (h.elements r).toList (k.elements q).toList := by
  induction depth generalizing v w with
  | zero => exact twins.elim
  | succ depth ih =>
    rcases twins.storage with ⟨hv, _⟩ | ⟨r', q', hr, hq, slots⟩
    · simp only [pairs, hv, List.not_mem_nil] at paired
    · rw [pairs_of_storage hr hq] at paired related
      obtain ⟨_, inner⟩ := List.forall_mem_cons.1 related
      have within {a b : Variable} (mem : (a, b) ∈ (h.elements r').toList.zip (k.elements q').toList) :
          ∀ e ∈ pairs h k depth a b, R e.1 e.2 := fun e he =>
        inner e (List.mem_flatMap.2 ⟨(a, b), mem, he⟩)
      rcases List.mem_cons.1 paired with same | paired
      · cases same
        exact forall₂_of_zip slots fun a b mem twins => twins.alike (within mem)
      · obtain ⟨⟨a, b⟩, mem, paired⟩ := List.mem_flatMap.1 paired
        exact ih (List.forall₂_zip slots mem) paired (within mem)

end Twins

theorem mirrors_of_twins {vs ws : List Variable} (twins : vs.Forall₂ (Twins h k depth) ws)
    (within : ∀ r : Nat, r ∈ vs.flatMap (h.refs depth) → r < h.size)
    (within' : ∀ q : Nat, q ∈ ws.flatMap (k.refs depth) → q < k.size)
    (unshared : (vs.flatMap (h.refs depth)).Nodup) (unshared' : (ws.flatMap (k.refs depth)).Nodup) :
    ∃ R, h.Mirrors R k ∧ vs.Forall₂ (Slot.Alike R) ws := by
  let met : List (Ref × Ref) := (vs.zip ws).flatMap fun e => pairs h k depth e.1 e.2
  have left : met.map Prod.fst = vs.flatMap (h.refs depth) :=
    map_flatMap_zip_left twins fun _ _ => Twins.map_fst_pairs
  have right : met.map Prod.snd = ws.flatMap (k.refs depth) :=
    map_flatMap_zip_right twins fun _ _ => Twins.map_snd_pairs
  have related {v w : Variable} (mem : (v, w) ∈ vs.zip ws) : ∀ e ∈ pairs h k depth v w, (e.1, e.2) ∈ met :=
    fun e he => List.mem_flatMap.2 ⟨(v, w), mem, he⟩
  rw [← left] at within unshared
  rw [← right] at within' unshared'
  refine ⟨fun r q => (r, q) ∈ met, ⟨⟨?_, ?_⟩, ?_, ?_⟩, ?_⟩
  · intro r q r' first second
    exact congrArg Prod.fst (List.inj_on_of_nodup_map unshared' first second rfl)
  · intro r q q' first second
    exact congrArg Prod.snd (List.inj_on_of_nodup_map unshared first second rfl)
  · intro r q paired
    exact ⟨within r (List.mem_map.2 ⟨_, paired, rfl⟩), within' q (List.mem_map.2 ⟨_, paired, rfl⟩)⟩
  · intro r q paired
    obtain ⟨⟨v, w⟩, mem, paired⟩ := List.mem_flatMap.1 paired
    exact (List.forall₂_zip twins mem).entries paired (related mem)
  · exact forall₂_of_zip twins fun v w mem twins => twins.alike (related mem)

end Heap
end Tickwise
