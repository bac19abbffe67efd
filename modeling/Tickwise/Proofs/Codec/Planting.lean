import Tickwise.Proofs.Codec.Value
set_option autoImplicit false

/-!
# Giving storage to trees

Trees get storage of their own: what is planted shows the tree it came from, and no reference in it is met
twice or was there before. So a variable that is written, read and planted holds the same as before.
-/
namespace Tickwise

def Tree.Nested : (depth : Nat) → Tree → Prop
  | 0, _ => False
  | depth + 1, t => ∀ us, t.slot.value.storage? = some us → ∀ u ∈ us, u.Nested depth

namespace Heap

/-- The references that a variable leads to, nested less than `depth` deep, each as often as it is met. -/
def refs (h : Heap) : (depth : Nat) → Variable → List Ref
  | 0, _ => []
  | depth + 1, v =>
    match v.value.storage? with
    | none => []
    | some r => r :: (h.elements r).toList.flatMap (h.refs depth)

variable {h k l : Heap} {depth : Nat} {v : Variable} {t : Tree}

theorem refs_of_scalar (holds : v.value.storage? = none) : h.refs depth v = [] := by
  cases depth with
  | zero => rfl
  | succ depth => simp [refs, holds]

theorem refs_of_storage {r : Ref} (holds : v.value.storage? = some r) :
    h.refs (depth + 1) v = r :: (h.elements r).toList.flatMap (h.refs depth) := by
  simp [refs, holds]

theorem refs_grows (grows : h.Grows k) (within : ∀ r ∈ h.refs depth v, r < h.size) :
    k.refs depth v = h.refs depth v := by
  induction depth generalizing v with
  | zero => rfl
  | succ depth ih =>
    cases holds : v.value.storage? with
    | none => rw [refs_of_scalar holds, refs_of_scalar holds]
    | some r =>
      rw [refs_of_storage holds] at within
      obtain ⟨own, inner⟩ := List.forall_mem_cons.1 within
      have entries : ∀ e ∈ (h.elements r).toList, k.refs depth e = h.refs depth e := fun e he =>
        ih fun q hq => inner q (List.mem_flatMap.2 ⟨e, he, hq⟩)
      rw [refs_of_storage holds, refs_of_storage holds, grows.elements_eq r own,
        List.flatMap_congr entries]

theorem Shows.grows (shows : h.Shows depth v t) (grows : h.Grows k)
    (within : ∀ r ∈ h.refs depth v, r < h.size) : k.Shows depth v t := by
  induction depth generalizing v t with
  | zero => exact shows.elim
  | succ depth ih =>
    refine Slot.Alike.mono shows fun r ts holds _ entries => ?_
    rw [refs_of_storage holds] at within
    obtain ⟨own, inner⟩ := List.forall_mem_cons.1 within
    rw [grows.elements_eq r own]
    exact forall₂_imp_mem entries fun e u he _ hu =>
      ih hu fun q hq => inner q (List.mem_flatMap.2 ⟨e, he, hq⟩)

/-- Variables of the second heap show trees, with storage that the first heap does not have. -/
structure Planted (h : Heap) (depth : Nat) (ts : List Tree) (k : Heap) (vs : List Variable) : Prop where
  grows : h.Grows k
  shows : List.Forall₂ (k.Shows depth) vs ts
  fresh : ∀ r : Nat, r ∈ vs.flatMap (k.refs depth) → h.size ≤ r ∧ r < k.size
  nodup : (vs.flatMap (k.refs depth)).Nodup

namespace Planted

variable {ts us : List Tree} {vs ws : List Variable}

theorem nil (h : Heap) (depth : Nat) : Planted h depth [] h [] where
  grows := .refl h
  shows := .nil
  fresh := by simp
  nodup := .nil

theorem later (planted : Planted h depth ts k vs) (grows : k.Grows l) :
    List.Forall₂ (l.Shows depth) vs ts ∧ vs.flatMap (l.refs depth) = vs.flatMap (k.refs depth) := by
  have within : ∀ v ∈ vs, ∀ r ∈ k.refs depth v, r < k.size := fun v hv r hr =>
    (planted.fresh r (List.mem_flatMap.2 ⟨v, hv, hr⟩)).2
  constructor
  · exact forall₂_imp_mem planted.shows fun v t hv _ shows => shows.grows grows (within v hv)
  · exact List.flatMap_congr fun v hv => refs_grows grows (within v hv)

theorem append (first : Planted h depth ts k vs) (second : Planted k depth us l ws) :
    Planted h depth (ts ++ us) l (vs ++ ws) := by
  obtain ⟨shows, refs⟩ := first.later second.grows
  have old : ∀ r : Nat, r ∈ vs.flatMap (l.refs depth) → h.size ≤ r ∧ r < k.size := by
    rw [refs]
    exact first.fresh
  have size : h.size ≤ k.size := first.grows.size_le
  have size' : k.size ≤ l.size := second.grows.size_le
  refine ⟨first.grows.trans second.grows, List.rel_append shows second.shows, ?_, ?_⟩
  · intro r hr
    rw [List.flatMap_append] at hr
    rcases List.mem_append.1 hr with hr | hr
    · have bounds := old r hr
      omega
    · have bounds := second.fresh r hr
      omega
  · rw [List.flatMap_append, List.nodup_append]
    refine ⟨by rw [refs]; exact first.nodup, second.nodup, fun r hr q hq same => ?_⟩
    have below := (old r hr).2
    have above := (second.fresh q hq).1
    rw [same] at below
    omega

theorem alloc (planted : Planted h depth ts k vs) {own : Variable} {t : Tree}
    (holds : own.value.storage? = some k.size)
    (alike : own.Alike (fun r us => r = k.size ∧ us = ts) t.slot) :
    Planted h (depth + 1) [t] (k.alloc vs.toArray).2 [own] := by
  obtain ⟨shows, refs⟩ := planted.later (.alloc k vs.toArray)
  have stored : ((k.alloc vs.toArray).2.elements k.size).toList = vs := by
    rw [elements_alloc, if_pos rfl]
  have led : [own].flatMap ((k.alloc vs.toArray).2.refs (depth + 1)) =
      k.size :: vs.flatMap (k.refs depth) := by
    rw [List.flatMap_singleton, refs_of_storage holds, stored, refs]
  have size := planted.grows.size_le
  refine ⟨planted.grows.trans (.alloc ..), .cons ?_ .nil, ?_, ?_⟩
  · refine alike.mono fun r us _ _ same => ?_
    rw [same.1, same.2, stored]
    exact shows
  · rw [led, size_alloc]
    intro r hr
    rcases List.mem_cons.1 hr with rfl | hr
    · omega
    · have bounds := planted.fresh r hr
      omega
  · rw [led, List.nodup_cons]
    refine ⟨fun mem => ?_, planted.nodup⟩
    have bounds := planted.fresh _ mem
    omega

end Planted

theorem plantAll_eq (ts : List Tree) (h : Heap) : plant.plantAll ts h = mapThread plant ts h := by
  induction ts generalizing h with
  | nil => rfl
  | cons t ts ih =>
    simp only [plant.plantAll, mapThread, ih]

theorem planted_mapThread {ts : List Tree}
    (each : ∀ t ∈ ts, ∀ h, Planted h depth [t] (plant t h).2 [(plant t h).1]) (h : Heap) :
    Planted h depth ts (mapThread plant ts h).2 (mapThread plant ts h).1 := by
  induction ts generalizing h with
  | nil => exact .nil h depth
  | cons t ts ih =>
    obtain ⟨first, rest⟩ := List.forall_mem_cons.1 each
    exact (first h).append (ih rest _)

theorem planted_nested (nested : t.Nested depth) (h : Heap) :
    Planted h depth [t] (plant t h).2 [(plant t h).1] := by
  induction depth generalizing t h with
  | zero => exact nested.elim
  | succ depth ih =>
    obtain ⟨⟨name, id, ty, value, label⟩⟩ := t
    have all (us : List Tree) (holds : value.storage? = some us) :
        Planted h depth us (plant.plantAll us h).2 (plant.plantAll us h).1 := by
      rw [plantAll_eq]
      exact planted_mapThread (fun u hu h => ih (nested us holds u hu) h) h
    have scalar {own : Variable} (holds : own.value.storage? = none)
        (alike : ∀ R, own.Alike R ⟨name, id, ty, value, label⟩) :
        Planted h (depth + 1) [.mk ⟨name, id, ty, value, label⟩] h [own] := by
      refine ⟨.refl h, .cons (alike _) .nil, ?_, ?_⟩ <;> simp [refs_of_scalar holds]
    cases value with
    | array us => exact (all us rfl).alloc rfl ⟨rfl, rfl, rfl, .array ⟨rfl, rfl⟩, rfl⟩
    | object cls us => exact (all us rfl).alloc rfl ⟨rfl, rfl, rfl, .object cls ⟨rfl, rfl⟩, rfl⟩
    | _ => exact scalar rfl fun R => ⟨rfl, rfl, rfl, by constructor, rfl⟩

theorem Shows.nested (shows : l.Shows depth v t) : t.Nested depth := by
  induction depth generalizing v t with
  | zero => exact shows.elim
  | succ depth ih =>
    intro us holds u hu
    have value : v.value.Alike (fun r us => List.Forall₂ (l.Shows depth) (l.elements r).toList us) t.slot.value :=
      shows.value
    generalize v.value = held at value
    generalize t.slot.value = shown at value holds
    cases value with
    | array entries | object _ entries =>
      cases holds
      obtain ⟨e, _, shows⟩ := forall₂_exists_left entries hu
      exact ih shows
    | _ => cases holds

theorem planted_plant {v : Variable} {t : Tree} (shows : l.Shows depth v t) (h : Heap) :
    Planted h depth [t] (plant t h).2 [(plant t h).1] :=
  planted_nested shows.nested h

end Heap

namespace Codec

theorem ok_of_toExcept {w : Written} {bytes : List UInt8} (h : w.toExcept = .ok bytes) :
    w.error = none ∧ w.bytes = bytes := by
  unfold Written.toExcept at h
  split at h
  · cases h
  · next noError =>
    cases h
    exact ⟨noError, rfl⟩

/-- A type that was written is read back, whatever follows it. So is a variable, by content, if each slot in
it holds what its type allows. -/
theorem round_trip (h : Heap) :
    (∀ ty bytes rest, (type maxDepth ty).toExcept = .ok bytes →
      (readType maxDepth).run (bytes ++ rest) = .ok (ty, rest)) ∧
    ∀ v bytes rest, h.FitsThroughout v → (slot h v).toExcept = .ok bytes →
      ∃ t, readTree.run (bytes ++ rest) = .ok (t, rest) ∧
        ∀ k : Heap, h.SameContent (k.plant t).2 v (k.plant t).1 := by
  constructor
  · intro ty bytes rest written
    obtain ⟨noError, rfl⟩ := ok_of_toExcept written
    obtain ⟨_, rfl, run⟩ := (readsBack_type maxDepth ty).accepts noError trivial rest
    exact run
  · intro v bytes rest fits written
    obtain ⟨noError, rfl⟩ := ok_of_toExcept written
    obtain ⟨t, shows, run⟩ := (readsBack_slotIn h maxDepth v).accepts noError fits rest
    refine ⟨t, run, fun k => ?_⟩
    have planted := Heap.planted_plant shows k
    cases planted.shows with
    | cons first _ => exact Heap.sameContent_of_shows shows first

def sharing : Heap := ⟨#[#[Slot.ofInt 7, Slot.fresh .int],
  #[{ Slot.temp (.array .int) (.array 0) with name := some "xs" }, Slot.ofFloat ⟨0x7FC00001⟩],
  #[{ Slot.temp (.array .int) (.array 0) with name := some "xs" }, Slot.ofFloat ⟨0x80000000⟩],
  #[Slot.temp (.named "P") (.object "P" 1), Slot.temp (.named "P") (.object "P" 2)]]⟩

theorem round_trip_sharing :
    let v := (Slot.temp (.array (.named "P")) (.array 3)).declaredAs "ps" 5
    ∃ bytes t, (slot sharing v).toExcept = .ok bytes ∧ readTree.run (bytes ++ [1]) = .ok (t, [1]) ∧
      sharing.SameContent (Heap.empty.plant t).2 v (Heap.empty.plant t).1 := by
  intro v
  have fits : sharing.FitsThroughout v :=
    Heap.fitsThroughout_of_fitsTo (show sharing.fitsTo 4 v = true by decide +kernel)
  have noError : (slot sharing v).error = none := by decide +kernel
  have written : (slot sharing v).toExcept = .ok (slot sharing v).bytes := by
    rw [Written.toExcept, noError]
  obtain ⟨t, run, same⟩ := (round_trip sharing).2 v _ [1] fits written
  exact ⟨_, t, written, run, same .empty⟩

end Codec
end Tickwise
