import Mathlib.Algebra.BigOperators.Group.List.Lemmas
import Mathlib.Algebra.BigOperators.Ring.List
import Mathlib.Algebra.Order.BigOperators.GroupWithZero.List
import Mathlib.Algebra.Order.Ring.Nat
import Mathlib.Data.List.TakeWhile
import Tickwise.Proofs.Storage.Alike
set_option autoImplicit false

/-!
# Nested arrays

Which sizes an allocation refuses, and what it makes of all others: arrays nested as their sizes say, each in
storage that nothing else has.
-/
namespace Tickwise.Heap

variable {h k l : Heap} {ty elem : Ty} {v : Variable} {sizes : List Nat} {refs qs : List Ref}

def Nested (h : Heap) : (ty : Ty) → (sizes : List Nat) → Variable → (refs : List Ref) → Prop
  | .array elem, sizes, v, refs => ∃ r inner, v = Slot.temp (.array elem) (.array r) ∧
      (h.elements r).size = sizes.headD 0 ∧ refs = r :: inner.flatten ∧
      List.Forall₂ (Nested h elem sizes.tail) (h.elements r).toList inner
  | ty, _, v, refs => v = Slot.zeroed ty ∧ refs = []

theorem Nested.grows (grows : h.Grows k) (nested : h.Nested ty sizes v refs) (held : ∀ r ∈ refs, r < h.size) :
    k.Nested ty sizes v refs := by
  induction ty generalizing sizes v refs with
  | array elem ih =>
    obtain ⟨r, inner, value, size, rfl, rows⟩ := nested
    have kept := grows.elements_eq r (held r List.mem_cons_self)
    refine ⟨r, inner, value, kept ▸ size, rfl, ?_⟩
    rw [kept]
    refine forall₂_imp_mem rows fun w owned _ mem nested => ih nested fun q hq => held q ?_
    exact List.mem_cons_of_mem r (List.mem_flatten.2 ⟨owned, mem, hq⟩)
  | _ => exact nested

structure Issues (h k : Heap) (refs : List Ref) : Prop where
  grows : h.Grows k
  nodup : refs.Nodup
  new : ∀ r ∈ refs, h.size ≤ r ∧ r < k.size

namespace Issues

theorem none (h : Heap) : h.Issues h [] := ⟨.refl h, .nil, nofun⟩

theorem append (first : h.Issues k refs) (second : k.Issues l qs) : h.Issues l (refs ++ qs) where
  grows := first.grows.trans second.grows
  nodup := List.nodup_append.2 ⟨first.nodup, second.nodup, fun r hr q hq same =>
    absurd (first.new r hr).2 (Nat.not_lt_of_le (same ▸ (second.new q hq).1))⟩
  new r hr := by
    rcases List.mem_append.1 hr with hr | hr
    · exact ⟨(first.new r hr).1, Nat.lt_of_lt_of_le (first.new r hr).2 second.grows.size_le⟩
    · exact ⟨Nat.le_trans first.grows.size_le (second.new r hr).1, (second.new r hr).2⟩

theorem alloc (h : Heap) (elements : Array Variable) : h.Issues (h.alloc elements).2 [h.size] where
  grows := .alloc h elements
  nodup := List.pairwise_singleton _ _
  new r hr := by
    cases List.mem_singleton.1 hr
    exact ⟨Nat.le_refl _, by rw [size_alloc]; exact Nat.lt_succ_self _⟩

theorem perm (issues : h.Issues k refs) (same : refs.Perm qs) : h.Issues k qs :=
  ⟨issues.grows, same.nodup issues.nodup, fun r hr => issues.new r (same.mem_iff.2 hr)⟩

end Issues

/-- What was made is nested in storage of its own. -/
def Builds (h : Heap) (ty : Ty) (sizes : List Nat) (made : Variable × Heap) : Prop :=
  ∃ refs, made.2.Nested ty sizes made.1 refs ∧ h.Issues made.2 refs

theorem builds_repeat {make : Heap → Variable × Heap} (builds : ∀ h : Heap, h.Builds elem sizes (make h)) (count : Nat)
    {made : Array Variable} {inner : List (List Ref)}
    (rows : List.Forall₂ (k.Nested elem sizes) made.toList inner) (issues : h.Issues k inner.flatten) :
    ∃ inner, List.Forall₂ ((repeatMake make count made k).2.Nested elem sizes)
        (repeatMake make count made k).1.toList inner ∧
      h.Issues (repeatMake make count made k).2 inner.flatten := by
  induction count generalizing made inner k with
  | zero => exact ⟨inner, rows, issues⟩
  | succ count ih =>
    obtain ⟨refs, nested, issued⟩ := builds k
    -- The slots made so far lie in storage that the next one only adds to.
    have kept : List.Forall₂ ((make k).2.Nested elem sizes) made.toList inner :=
      forall₂_imp_mem rows fun w owned _ mem nested => nested.grows issued.grows fun r hr =>
        (issues.new r (List.mem_flatten.2 ⟨owned, mem, hr⟩)).2
    have rows : List.Forall₂ ((make k).2.Nested elem sizes) (made.push (make k).1).toList (inner ++ [refs]) := by
      rw [Array.toList_push]
      exact List.rel_append kept (.cons nested .nil)
    refine ih rows ?_
    rw [List.flatten_append, List.flatten_singleton]
    exact issues.append issued

theorem builds_buildArray (ty : Ty) (sizes : List Nat) (h : Heap) : h.Builds ty sizes (buildArray ty sizes h) := by
  induction ty generalizing sizes h with
  | array elem ih =>
    have size := size_repeatMake (buildArray elem sizes.tail) (sizes.headD 0) #[] h
    have none : List.Forall₂ (h.Nested elem sizes.tail) (#[] : Array Variable).toList [] := .nil
    obtain ⟨inner, rows, issues⟩ := builds_repeat (ih sizes.tail) (sizes.headD 0) none (.none h)
    unfold buildArray
    dsimp only
    generalize repeatMake _ _ _ h = made at rows issues size
    -- The array itself is stored last, behind the arrays in it.
    have own := Issues.alloc made.2 made.1
    have stored : (made.2.alloc made.1).2.elements made.2.size = made.1 := by rw [elements_alloc, if_pos rfl]
    refine ⟨made.2.size :: inner.flatten, ⟨made.2.size, inner, rfl, ?_, rfl, ?_⟩, ?_⟩
    · rw [stored, size]
      exact Nat.zero_add _
    · rw [stored]
      exact forall₂_imp_mem rows fun w owned _ mem nested => nested.grows own.grows fun r hr =>
        (issues.new r (List.mem_flatten.2 ⟨owned, mem, hr⟩)).2
    · exact (issues.append own).perm (List.perm_append_singleton _ _)
  | _ => exact ⟨[], ⟨rfl, rfl⟩, .none h⟩

def count (size : Int32) : Nat := size.toInt.toNat

/-- The sizes that say how much is made: those before the first empty dimension. -/
def leading (sizes : List Int32) : List Nat := (sizes.map count).takeWhile (0 < ·)

theorem leading_cons (n : Int32) (ns : List Int32) :
    leading (n :: ns) = if 0 < count n then count n :: leading ns else [] := by
  simp only [leading, List.map_cons, List.takeWhile_cons, decide_eq_true_eq]

theorem leading_pos (ns : List Int32) : ∀ n ∈ leading ns, 0 < n := fun n hn => by
  simpa using List.mem_takeWhile_imp hn

theorem leading_prod_pos (ns : List Int32) : 0 < (leading ns).prod :=
  List.prod_pos (leading_pos ns)

theorem leading_of_prod_pos {ns : List Int32} (pos : 0 < (ns.map count).prod) : leading ns = ns.map count :=
  List.takeWhile_eq_self_iff.2 fun _ hn => decide_eq_true (Nat.pos_of_ne_zero fun zero =>
    pos.ne' (List.prod_eq_zero (zero ▸ hn)))

theorem checkSizes_eq {product : Nat} {ns : List Int32} (nonneg : ∀ n ∈ ns, 0 ≤ n)
    (small : product ≤ maxElements) :
    checkSizes product ns =
      if maxElements < product * (leading ns).prod then .error .arrayTooLarge else .ok (ns.map count) := by
  induction ns generalizing product with
  | nil => simp [checkSizes, leading, Nat.not_lt.2 small]
  | cons n ns ih =>
    have sign : ¬ n < 0 := Int32.not_lt.2 (nonneg n List.mem_cons_self)
    rw [checkSizes, if_neg sign, leading_cons]
    change (if product * count n > maxElements then _ else (checkSizes (product * count n) ns).map (count n :: ·)) = _
    have rest : product * count n ≤ maxElements → checkSizes (product * count n) ns = _ :=
      ih fun m hm => nonneg m (List.mem_cons_of_mem n hm)
    by_cases positive : 0 < count n
    · have later := Nat.mul_le_mul_left (product * count n) (leading_prod_pos ns)
      rw [if_pos positive, List.prod_cons, ← Nat.mul_assoc]
      by_cases exceeds : maxElements < product * count n
      · rw [if_pos exceeds, if_pos (by omega)]
      · rw [if_neg exceeds, rest (Nat.le_of_not_lt exceeds)]
        split <;> rfl
    · -- Once a size is zero, so is every product that includes it.
      have zero : product * count n = 0 := by rw [Nat.eq_zero_of_not_pos positive, Nat.mul_zero]
      rw [zero] at rest ⊢
      rw [if_neg positive, List.prod_nil, Nat.mul_one, if_neg (Nat.not_lt.2 small), if_neg (Nat.not_lt_zero _),
        rest (Nat.zero_le _), Nat.zero_mul, if_neg (Nat.not_lt_zero _)]
      rfl

/-- Allocation fails where a size before the first empty dimension, or the product of those sizes, is over the
limit, so where the product of all sizes is; what it makes of other sizes is nested by them in storage of its
own. -/
theorem allocArray_limits (h : Heap) (ty : Ty) (ns : List Int32) (nonneg : ∀ n ∈ ns, 0 ≤ n) :
    (h.allocArray ty ns = .error .arrayTooLarge ↔
      (∃ n ∈ leading ns, maxElements < n) ∨ maxElements < (leading ns).prod) ∧
    (maxElements < (ns.map count).prod → h.allocArray ty ns = .error .arrayTooLarge) ∧
    (h.allocArray ty ns ≠ .error .arrayTooLarge →
      ∃ made, h.allocArray ty ns = .ok made ∧ h.Builds ty (ns.map count) made) := by
  have factor : ∀ n ∈ leading ns, n ≤ (leading ns).prod := fun n hn =>
    Nat.le_of_dvd (leading_prod_pos ns) (List.dvd_prod hn)
  have checked : checkSizes 1 ns = _ := checkSizes_eq nonneg (by decide)
  rw [Nat.one_mul] at checked
  unfold allocArray
  by_cases exceeds : maxElements < (leading ns).prod
  · rw [checked, if_pos exceeds]
    exact ⟨⟨fun _ => .inr exceeds, fun _ => rfl⟩, fun _ => rfl, fun passed => absurd rfl passed⟩
  · rw [checked, if_neg exceeds]
    refine ⟨⟨nofun, ?_⟩, fun all => ?_, fun _ => ⟨_, rfl, builds_buildArray ty (ns.map count) h⟩⟩
    · rintro (⟨n, hn, more⟩ | more)
      · exact absurd (Nat.lt_of_lt_of_le more (factor n hn)) exceeds
      · exact absurd more exceeds
    · exact absurd (leading_of_prod_pos (Nat.zero_lt_of_lt all) ▸ all) exceeds

theorem allocArray_limits_rows : (∀ n ∈ ([2, 3] : List Int32), 0 ≤ n) ∧
    ∃ made, empty.allocArray (.array (.array (.array .string))) [2, 3] = .ok made ∧
      empty.Builds (.array (.array (.array .string))) [2, 3] made := by
  have nonneg : ∀ n ∈ ([2, 3] : List Int32), 0 ≤ n :=
    List.forall_mem_cons.2 ⟨by decide, List.forall_mem_singleton.2 (by decide)⟩
  have limits := allocArray_limits empty (.array (.array (.array .string))) [2, 3] nonneg
  exact ⟨nonneg, limits.2.2 fun refused => absurd (limits.1.1 refused) (by decide)⟩

/-- A size over the limit passes behind an empty dimension. -/
theorem allocArray_unlimited : ¬ ∀ (h : Heap) (ty : Ty) (ns : List Int32), (∀ n ∈ ns, 0 ≤ n) →
    ns.length ≤ ty.dimensions → (∃ n ∈ ns, maxElements < count n) →
    h.allocArray ty ns = .error .arrayTooLarge := by
  intro limited
  have nonneg : ∀ n ∈ ([0, 0x200000] : List Int32), 0 ≤ n :=
    List.forall_mem_cons.2 ⟨by decide, List.forall_mem_singleton.2 (by decide)⟩
  have refused := limited empty (.array (.array .int)) [0, 0x200000] nonneg (by decide)
    ⟨0x200000, by decide, by decide⟩
  have passed : empty.allocArray (.array (.array .int)) [0, 0x200000] =
      .ok (Slot.temp (.array (.array .int)) (.array 0), ⟨#[#[]]⟩) := by rfl
  cases passed.symm.trans refused

end Tickwise.Heap
