import Mathlib.Logic.Relator
import Mathlib.Order.Basic
import Tickwise.Proofs.Storage.Text
import Tickwise.Value.Operator
set_option autoImplicit false

/-!
# Mirrored storage

One heap mirrors another if their references are paired one to one and paired references lead to alike
slots. What is computed from alike slots on two such heaps is alike, and the heaps mirror each other after
the same change to both. Storage is paired as it is made, so a pairing only grows.
-/
namespace Tickwise

/-- Two computations both fail, or both yield something. -/
inductive Outcomes {ε δ α β : Type} (E : ε → δ → Prop) (A : α → β → Prop) : Except ε α → Except δ β → Prop
  | ok {a : α} {b : β} (h : A a b) : Outcomes E A (.ok a) (.ok b)
  | error {e : ε} {d : δ} (h : E e d) : Outcomes E A (.error e) (.error d)

namespace Outcomes

variable {ε δ α β γ ζ : Type} {E : ε → δ → Prop} {A A' : α → β → Prop} {B : γ → ζ → Prop}
  {x : Except ε α} {y : Except δ β}

theorem bind {f : α → Except ε γ} {g : β → Except δ ζ} (h : Outcomes E A x y)
    (next : ∀ a b, A a b → Outcomes E B (f a) (g b)) : Outcomes E B (x >>= f) (y >>= g) := by
  cases h with
  | ok h => exact next _ _ h
  | error h => exact .error h

theorem map {f : α → γ} {g : β → ζ} (h : Outcomes E A x y) (next : ∀ a b, A a b → B (f a) (g b)) :
    Outcomes E B (x.map f) (y.map g) := by
  cases h with
  | ok h => exact .ok (next _ _ h)
  | error h => exact .error h

theorem same {E : ε → ε → Prop} {B : γ → ζ → Prop} {x y : Except ε α} (h : x = y) (errors : ∀ e, E e e)
    {f : α → Except ε γ} {g : α → Except ε ζ} (next : ∀ a, Outcomes E B (f a) (g a)) :
    Outcomes E B (x >>= f) (y >>= g) := by
  cases h
  cases x with
  | ok a => exact next a
  | error e => exact .error (errors e)

theorem of_eq {E : ε → ε → Prop} {A : α → α → Prop} {x y : Except ε α} (h : x = y) (errors : ∀ e, E e e)
    (values : ∀ a, A a a) : Outcomes E A x y := by
  cases h
  cases x with
  | ok a => exact .ok (values a)
  | error e => exact .error (errors e)

end Outcomes

section

variable {ρ σ : Type} {R : ρ → σ → Prop} {v : Slot ρ} {w : Slot σ}

namespace Slot.Alike

theorem temp {ty : Ty} {a : Value ρ} {b : Value σ} (h : a.Alike R b) :
    (Slot.temp ty a).Alike R (Slot.temp ty b) :=
  ⟨rfl, rfl, rfl, h, rfl⟩

theorem fresh (ty : Ty) : (Slot.fresh ty : Slot ρ).Alike R (Slot.fresh ty) := by
  unfold Slot.fresh
  split
  · exact temp .void
  · exact temp .unassigned

theorem zeroed (ty : Ty) : (Slot.zeroed ty : Slot ρ).Alike R (Slot.zeroed ty) := by
  refine temp ?_
  cases ty <;> constructor

theorem declaredAs (h : v.Alike R w) (name : String) (id : VarId) :
    (v.declaredAs name id).Alike R (w.declaredAs name id) :=
  ⟨rfl, rfl, h.ty, h.value, h.label⟩

theorem toTemp (h : v.Alike R w) : v.toTemp.Alike R w.toTemp := ⟨rfl, rfl, h.ty, h.value, h.label⟩

theorem isInit (h : v.Alike R w) : v.isInit = w.isInit := by
  unfold Slot.isInit
  rw [h.value.isUnassigned]

theorem toInt (h : v.Alike R w) : v.toInt = w.toInt := by
  have value := h.value
  unfold Slot.toInt
  generalize v.value = a at value
  generalize w.value = b at value
  cases value <;> rfl

theorem toFloat (h : v.Alike R w) : v.toFloat = w.toFloat := by
  have value := h.value
  unfold Slot.toFloat
  generalize v.value = a at value
  generalize w.value = b at value
  cases value <;> rfl

theorem toBool (h : v.Alike R w) : v.toBool = w.toBool := by
  have value := h.value
  unfold Slot.toBool
  generalize v.value = a at value
  generalize w.value = b at value
  cases value <;> rfl

theorem toArray (h : v.Alike R w) : Outcomes Eq R v.toArray w.toArray := by
  have value := h.value
  unfold Slot.toArray
  generalize v.value = a at value
  generalize w.value = b at value
  cases value with
  | array h => exact .ok h
  | _ => exact .error rfl

theorem toObject (h : v.Alike R w) :
    Outcomes Eq (fun x y => x.1 = y.1 ∧ R x.2 y.2) v.toObject w.toObject := by
  have value := h.value
  unfold Slot.toObject
  generalize v.value = a at value
  generalize w.value = b at value
  cases value with
  | object cls h => exact .ok ⟨rfl, h⟩
  | _ => exact .error rfl

theorem unary (h : v.Alike R w) (op : UnaryOp) : Outcomes Eq (Slot.Alike R) (v.unary op) (w.unary op) := by
  unfold Slot.unary
  rw [h.ty, h.toInt, h.toFloat, h.toBool]
  split
  · exact (Outcomes.of_eq rfl (fun _ => rfl) fun _ => rfl).map fun _ _ same => same ▸ temp (.float _)
  · exact (Outcomes.of_eq rfl (fun _ => rfl) fun _ => rfl).map fun _ _ same => same ▸ temp (.int _)
  · exact (Outcomes.of_eq rfl (fun _ => rfl) fun _ => rfl).map fun _ _ same => same ▸ temp (.int _)
  · exact (Outcomes.of_eq rfl (fun _ => rfl) fun _ => rfl).map fun _ _ same => same ▸ temp (.bool _)

theorem step (h : v.Alike R w) (up : Bool) : Outcomes Eq (Slot.Alike R) (v.step up) (w.step up) := by
  have value := h.value
  unfold Slot.step
  generalize hv : v.value = a at value
  generalize hw : w.value = b at value
  cases value with
  | int i => exact .ok ⟨h.name, h.id, h.ty, .int _, rfl⟩
  | float x => exact .ok ⟨h.name, h.id, h.ty, .float _, rfl⟩
  | _ => exact .error rfl

end Slot.Alike

end

theorem Slot.Alike.grow {R R' : Ref → Ref → Prop} {v w : Variable} (h : v.Alike R w) (le : R ≤ R') :
    v.Alike R' w :=
  h.mono fun r q _ _ => le r q

namespace Heap

variable {h k : Heap} {R : Ref → Ref → Prop} {v w dst dst' : Variable}

theorem Alike.toText (stores : h.Alike R k) (alike : v.Alike R w) : h.toText v = k.toText w := by
  have value := alike.value
  have text := text_alike stores alike
  unfold Heap.toText
  generalize v.value = a at value
  generalize w.value = b at value
  cases value <;> first | rfl | exact congrArg Except.ok text

theorem Alike.convertValue (stores : h.Alike R k) (alike : v.Alike R w) (ty : Ty) :
    Outcomes Eq (Value.Alike R) (h.convertValue ty v) (k.convertValue ty w) := by
  have same {α : Type} {x y : Except Fault α} (h : x = y) (f : α → Value Ref)
      (scalar : ∀ a, (f a).Alike R (f a)) : Outcomes Eq (Value.Alike R) (x.map f) (y.map f) :=
    (Outcomes.of_eq (A := Eq) h (fun _ => rfl) fun _ => rfl).map fun a _ same => same ▸ scalar a
  have reference : Outcomes Eq (Value.Alike R) (h.convertValue .null v) (k.convertValue .null w) := by
    have value := alike.value
    simp only [Heap.convertValue]
    generalize v.value = a at value
    generalize w.value = b at value
    cases value with
    | unassigned => exact .error rfl
    | array h => exact .ok (.array h)
    | object cls h => exact .ok (.object cls h)
    | _ => exact .ok .null
  cases ty with
  | void => exact .ok .void
  | int => exact same alike.toInt _ .int
  | float => exact same alike.toFloat _ .float
  | bool => exact same alike.toBool _ .bool
  | string => exact same (stores.toText alike) _ .string
  | null => exact reference
  | array elem => exact reference
  | named cls => exact reference

theorem Alike.assign (stores : h.Alike R k) (target : dst.Alike R dst') (alike : v.Alike R w) :
    Outcomes Eq (Slot.Alike R) (h.assign dst v) (k.assign dst' w) := by
  unfold Heap.assign
  rw [target.ty, alike.label]
  exact (stores.convertValue alike dst'.ty).map fun a b value =>
    ⟨target.name, target.id, rfl, value, rfl⟩

theorem Alike.convert (stores : h.Alike R k) (alike : v.Alike R w) (ty : Ty) :
    Outcomes Eq (Slot.Alike R) (h.convert v ty) (k.convert w ty) :=
  stores.assign (.fresh ty) alike

/-- References of the two heaps are paired one to one, and lead to alike slots. -/
structure Mirrors (h : Heap) (R : Ref → Ref → Prop) (k : Heap) : Prop where
  unique : Relator.BiUnique R
  within : ∀ r q : Nat, R r q → r < h.size ∧ q < k.size
  alike : h.Alike R k

namespace Mirrors

variable {r r' q q' : Ref} (mirrors : h.Mirrors R k)

include mirrors

theorem eq_iff (first : R r q) (second : R r' q') : r = r' ↔ q = q' :=
  Relator.rel_eq mirrors.unique first second

theorem sameReference {a a' b b' : Value Ref} (left : a.Alike R b) (right : a'.Alike R b') :
    BinaryOp.sameReference a a' = BinaryOp.sameReference b b' := by
  cases left <;> cases right <;> try rfl
  case array first _ _ second => simp [BinaryOp.sameReference, mirrors.eq_iff first second]
  case object first _ _ _ second => simp [BinaryOp.sameReference, mirrors.eq_iff first second]

theorem binary (op : BinaryOp) (ty : Ty) {v v' w w' : Variable} (left : v.Alike R w)
    (right : v'.Alike R w') :
    Outcomes Eq (Slot.Alike R) (h.binary op v v' ty) (k.binary op w w' ty) := by
  have errors (e : Fault) : e = e := rfl
  unfold Heap.binary
  split
  · refine .same left.toInt errors fun a => .same right.toInt errors fun b => ?_
    split
    · exact .ok (.temp (.bool _))
    · exact .same rfl errors fun c => .ok (.temp (.int c))
  · refine .same left.toFloat errors fun a => .same right.toFloat errors fun b => ?_
    split
    · exact .ok (.temp (.bool _))
    · exact .same rfl errors fun c => .ok (.temp (.float c))
  · exact .same left.toBool errors fun a => .same right.toBool errors fun b => .ok (.temp (.bool _))
  · refine .same (mirrors.alike.toText left) errors fun a =>
      .same (mirrors.alike.toText right) errors fun b => ?_
    split
    · split
      · exact .error rfl
      · exact .ok (.temp (.string _))
    · exact .ok (.temp (.bool _))
  · refine .same (mirrors.sameReference left.value right.value) errors fun same => ?_
    exact .ok (.temp (.bool _))

theorem size (paired : R r q) : (h.elements r).size = (k.elements q).size := by
  have slots := (mirrors.alike r q paired).length_eq
  simpa using slots

theorem read? (paired : R r q) (i : Nat) : Option.Rel (Slot.Alike R) (h.read? r i) (k.read? q i) := by
  have slots := forall₂_getElem? (mirrors.alike r q paired) i
  rw [Array.getElem?_toList, Array.getElem?_toList] at slots
  exact slots

theorem change {h' k' : Heap} (size : h'.size = h.size) (size' : k'.size = k.size)
    (elements : ∀ r', h'.elements r' = if r' = r then (h'.elements r) else h.elements r')
    (elements' : ∀ q', k'.elements q' = if q' = q then (k'.elements q) else k.elements q')
    (paired : R r q) (slots : List.Forall₂ (Slot.Alike R) (h'.elements r).toList (k'.elements q).toList) :
    h'.Mirrors R k' where
  unique := mirrors.unique
  within r' q' also := by
    rw [size, size']
    exact mirrors.within r' q' also
  alike r' q' also := by
    have both := mirrors.eq_iff also paired
    rw [elements r', elements' q']
    by_cases same : r' = r
    · rw [if_pos same, if_pos (both.1 same)]
      exact slots
    · rw [if_neg same, if_neg (mt both.2 same)]
      exact mirrors.alike r' q' also

theorem write (paired : R r q) (i : Nat) (alike : v.Alike R w) :
    (h.write r i v).Mirrors R (k.write q i w) := by
  refine mirrors.change (size_write ..) (size_write ..) (fun r' => ?_) (fun q' => ?_) paired ?_
  · rw [elements_write, elements_write, if_pos rfl]
  · rw [elements_write, elements_write, if_pos rfl]
  · rw [elements_write, elements_write, if_pos rfl, if_pos rfl, Array.toList_setIfInBounds,
      Array.toList_setIfInBounds]
    exact forall₂_set (mirrors.alike r q paired) i alike

theorem extend (paired : R r q) (n : Nat) (alike : v.Alike R w) :
    (h.extend r n v).Mirrors R (k.extend q n w) := by
  obtain ⟨inside, inside'⟩ := mirrors.within r q paired
  refine mirrors.change (size_extend ..) (size_extend ..) (fun r' => ?_) (fun q' => ?_) paired ?_
  · rw [elements_extend inside, elements_extend inside, if_pos rfl]
  · rw [elements_extend inside', elements_extend inside', if_pos rfl]
  · rw [elements_extend inside, elements_extend inside', if_pos rfl, if_pos rfl, Array.toList_append,
      Array.toList_append, mirrors.size paired, Array.toList_replicate, Array.toList_replicate]
    exact List.rel_append (mirrors.alike r q paired) (forall₂_replicate _ alike)

end Mirrors

def Made {α β : Type} (R : Ref → Ref → Prop) (A : (Ref → Ref → Prop) → α → β → Prop) (x : α × Heap)
    (y : β × Heap) : Prop :=
  ∃ R', R ≤ R' ∧ A R' x.1 y.1 ∧ x.2.Mirrors R' y.2

namespace Mirrors

theorem alloc (mirrors : h.Mirrors R k) {vs ws : Array Variable}
    (alike : List.Forall₂ (Slot.Alike R) vs.toList ws.toList) :
    Made R (fun R' => R') (h.alloc vs) (k.alloc ws) := by
  let R' : Ref → Ref → Prop := fun r q => R r q ∨ r = h.size ∧ q = k.size
  have le : R ≤ R' := fun r q paired => .inl paired
  have old {r q : Nat} (paired : R r q) : r ≠ h.size ∧ q ≠ k.size := by
    have bounds := mirrors.within r q paired
    omega
  refine ⟨R', le, .inr ⟨rfl, rfl⟩, ⟨?_, ?_⟩, ?_, ?_⟩
  · rintro r q r' (first | first) (second | second)
    · exact mirrors.unique.1 first second
    · exact absurd second.2 (old first).2
    · exact absurd first.2 (old second).2
    · exact first.1.trans second.1.symm
  · rintro r q q' (first | first) (second | second)
    · exact mirrors.unique.2 first second
    · exact absurd second.1 (old first).1
    · exact absurd first.1 (old second).1
    · exact first.2.trans second.2.symm
  · rintro r q (paired | ⟨rfl, rfl⟩)
    · have bounds := mirrors.within r q paired
      rw [size_alloc, size_alloc]
      omega
    · rw [size_alloc, size_alloc]
      omega
  · have slots {vs ws : List Variable} (alike : vs.Forall₂ (Slot.Alike R) ws) :
        vs.Forall₂ (Slot.Alike R') ws := alike.imp fun _ _ h => h.grow le
    rintro r q (paired | ⟨rfl, rfl⟩)
    · rw [elements_alloc, elements_alloc, if_neg (old paired).1, if_neg (old paired).2]
      exact slots (mirrors.alike r q paired)
    · rw [elements_alloc, elements_alloc, if_pos rfl, if_pos rfl]
      exact slots alike

theorem newArray (mirrors : h.Mirrors R k) (elem : Ty) {vs ws : List Variable}
    (alike : vs.Forall₂ (Slot.Alike R) ws) :
    Made R Slot.Alike (h.newArray elem vs) (k.newArray elem ws) := by
  have slots : List.Forall₂ (Slot.Alike R) vs.toArray.toList ws.toArray.toList := alike
  obtain ⟨R', le, paired, mirrors⟩ := mirrors.alloc slots
  exact ⟨R', le, .temp (.array paired), mirrors⟩

theorem newObject (mirrors : h.Mirrors R k) (cls : ClassLayout) :
    Made R Slot.Alike (h.newObject cls) (k.newObject cls) := by
  let fields : List Variable := cls.fields.map fun f => { Slot.zeroed f.ty with name := some f.name }
  have alike : List.Forall₂ (Slot.Alike R) fields.toArray.toList fields.toArray.toList := by
    refine List.forall₂_same.2 fun v hv => ?_
    obtain ⟨f, _, rfl⟩ := List.mem_map.1 hv
    have zero : (Slot.zeroed f.ty : Variable).Alike R (Slot.zeroed f.ty) := .zeroed f.ty
    exact ⟨rfl, zero.id, zero.ty, zero.value, zero.label⟩
  obtain ⟨R', le, paired, mirrors⟩ := mirrors.alloc alike
  exact ⟨R', le, .temp (.object cls.name paired), mirrors⟩

theorem repeatMake {make : Heap → Variable × Heap}
    (makes : ∀ {h k R}, h.Mirrors R k → Made R Slot.Alike (make h) (make k)) (count : Nat)
    (mirrors : h.Mirrors R k) {made made' : Array Variable}
    (alike : List.Forall₂ (Slot.Alike R) made.toList made'.toList) :
    Made R (fun R xs ys => List.Forall₂ (Slot.Alike R) xs.toList ys.toList)
      (repeatMake make count made h) (repeatMake make count made' k) := by
  induction count generalizing made made' h k R with
  | zero => exact ⟨R, le_refl R, alike, mirrors⟩
  | succ count ih =>
    obtain ⟨R₁, le₁, slot, mirrors₁⟩ := makes mirrors
    have first : List.Forall₂ (Slot.Alike R₁) made.toList made'.toList :=
      alike.imp fun _ _ h => h.grow le₁
    have pushed : List.Forall₂ (Slot.Alike R₁) (made.push (make h).1).toList (made'.push (make k).1).toList := by
      rw [Array.toList_push, Array.toList_push]
      exact List.rel_append first (.cons slot .nil)
    obtain ⟨R₂, le₂, rest⟩ := ih mirrors₁ pushed
    exact ⟨R₂, le_trans le₁ le₂, rest⟩

theorem buildArray (ty : Ty) (sizes : List Nat) (mirrors : h.Mirrors R k) :
    Made R Slot.Alike (buildArray ty sizes h) (buildArray ty sizes k) := by
  induction ty generalizing sizes h k R with
  | array elem ih =>
    have makes {h k R} (mirrors : h.Mirrors R k) :
        Made R Slot.Alike (Heap.buildArray elem sizes.tail h) (Heap.buildArray elem sizes.tail k) :=
      ih _ mirrors
    have none : List.Forall₂ (Slot.Alike R) (#[] : Array Variable).toList (#[] : Array Variable).toList := .nil
    obtain ⟨R₁, le₁, slots, mirrors₁⟩ := repeatMake makes (sizes.headD 0) mirrors none
    obtain ⟨R₂, le₂, paired, mirrors₂⟩ := mirrors₁.alloc slots
    exact ⟨R₂, le_trans le₁ le₂, .temp (.array paired), mirrors₂⟩
  | _ => exact ⟨R, le_refl R, .zeroed _, mirrors⟩

theorem allocArray (mirrors : h.Mirrors R k) (ty : Ty) (sizes : List Int32) :
    Outcomes Eq (Made R Slot.Alike) (h.allocArray ty sizes) (k.allocArray ty sizes) :=
  (Outcomes.of_eq (A := Eq) rfl (fun _ => rfl) fun _ => rfl).map fun sizes _ same =>
    same ▸ mirrors.buildArray ty sizes

end Mirrors
end Heap
end Tickwise
