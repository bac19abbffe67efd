import Tickwise.Value.Array
set_option autoImplicit false

/-!
# Storage after a change

What is stored under each reference once storage was made, written or lengthened, and heaps of which one
has all the storage of the other.
-/
namespace Tickwise

namespace Heap

theorem elements_eq (h : Heap) (r : Ref) : h.elements r = h.cells[r]?.getD #[] := by
  simp [elements]

theorem elements_of_size_le {h : Heap} {r : Ref} (beyond : h.size ≤ r) : h.elements r = #[] := by
  rw [elements_eq, show h.cells[r]? = none from Array.getElem?_eq_none beyond]
  rfl

theorem size_alloc (h : Heap) (a : Array Variable) : (h.alloc a).2.size = h.size + 1 := by
  simp [alloc, size]

theorem elements_alloc (h : Heap) (a : Array Variable) (r : Ref) :
    (h.alloc a).2.elements r = if r = h.size then a else h.elements r := by
  simp only [elements_eq, alloc, size, Array.getElem?_push]
  split <;> rfl

theorem size_write (h : Heap) (r : Ref) (i : Nat) (v : Variable) :
    (h.write r i v).size = h.size := by
  simp [write, size]

theorem elements_write (h : Heap) (r : Ref) (i : Nat) (v : Variable) (q : Ref) :
    (h.write r i v).elements q =
      if q = r then (h.elements r).setIfInBounds i v else h.elements q := by
  simp only [elements_eq, write, Array.getElem?_modify]
  by_cases hq : q = r
  · subst hq
    rw [if_pos rfl, if_pos rfl]
    cases h.cells[q]? <;> simp
  · rw [if_neg hq, if_neg fun h => hq h.symm]

theorem size_extend (h : Heap) (r : Ref) (n : Nat) (v : Variable) :
    (h.extend r n v).size = h.size := by
  simp [extend, size]

theorem elements_extend {h : Heap} {r : Ref} (hr : r < h.size) (n : Nat) (v : Variable) (q : Ref) :
    (h.extend r n v).elements q =
      if q = r then h.elements r ++ Array.replicate (n - (h.elements r).size) v
      else h.elements q := by
  simp only [elements_eq, extend, Array.getElem?_modify]
  by_cases hq : q = r
  · subst hq
    rw [if_pos rfl, if_pos rfl, Array.getElem?_eq_getElem hr]
    rfl
  · rw [if_neg hq, if_neg fun h => hq h.symm]

theorem size_repeatMake (make : Heap → Variable × Heap) (count : Nat) (made : Array Variable) (h : Heap) :
    (repeatMake make count made h).1.size = made.size + count := by
  induction count generalizing made h with
  | zero => rfl
  | succ count ih =>
    refine (ih ..).trans ?_
    rw [Array.size_push]
    omega

section

variable {h : Heap} {r q : Ref} {i n : Nat} {v w : Variable}

theorem mem_elements_alloc {a : Array Variable} (hv : v ∈ (h.alloc a).2.elements q) : v ∈ a ∨ v ∈ h.elements q := by
  rw [elements_alloc] at hv
  split at hv
  · exact .inl hv
  · exact .inr hv

theorem mem_elements_write (hv : v ∈ (h.write r i w).elements q) : v = w ∨ v ∈ h.elements q := by
  rw [elements_write] at hv
  split at hv
  · next same =>
    subst same
    exact (Array.mem_or_eq_of_mem_setIfInBounds hv).symm
  · exact .inr hv

theorem mem_elements_extend (hv : v ∈ (h.extend r n w).elements q) : v = w ∨ v ∈ h.elements q := by
  by_cases hr : r < h.size
  · rw [elements_extend hr] at hv
    split at hv
    · next same =>
      subst same
      rcases Array.mem_append.1 hv with hv | hv
      · exact .inr hv
      · exact .inl (Array.mem_replicate.1 hv).2
    · exact .inr hv
  · -- Storage that was never handed out is not lengthened.
    refine .inr ?_
    simp only [elements_eq, extend, Array.getElem?_modify] at hv ⊢
    split at hv
    · next same =>
      subst same
      rw [Array.getElem?_eq_none (Nat.le_of_not_lt hr)] at hv ⊢
      exact hv
    · exact hv

end

/-- The second heap has all the storage of the first. -/
structure Grows (h k : Heap) : Prop where
  size_le : h.size ≤ k.size
  elements_eq : ∀ r < h.size, k.elements r = h.elements r

namespace Grows

theorem refl (h : Heap) : h.Grows h := ⟨Nat.le_refl _, fun _ _ => rfl⟩

theorem trans {h k l : Heap} (hk : h.Grows k) (kl : k.Grows l) : h.Grows l where
  size_le := Nat.le_trans hk.size_le kl.size_le
  elements_eq r hr := by
    have kept := kl.elements_eq r (Nat.lt_of_lt_of_le hr hk.size_le)
    rw [kept, hk.elements_eq r hr]

theorem alloc (h : Heap) (elements : Array Variable) : h.Grows (h.alloc elements).2 where
  size_le := by
    rw [size_alloc]
    exact Nat.le_succ _
  elements_eq r hr := by rw [elements_alloc, if_neg (Nat.ne_of_lt hr)]

end Grows

end Heap
end Tickwise
