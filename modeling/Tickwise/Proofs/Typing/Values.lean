import Tickwise.Compile.Expression
import Tickwise.Proofs.Typing.Shapes
set_option autoImplicit false

/-!
# Typed values

What conversions, operators and the making of storage yield is of the type that it is meant to be.
-/
namespace Tickwise

/-- Is each value of type `src` also one of type `dst`? -/
def Ty.Fits (dst src : Ty) : Prop := src = dst ∨ dst.isReference = true ∧ src = .null

def BinaryOp.Suits (op : BinaryOp) : Ty → Prop
  | .int | .float | .bool => True
  | .string => op = .add ∨ op.isComparison = true
  | _ => op.isComparison = true

namespace Shapes

variable {S S' : Shapes} {ty src : Ty} {v w : Variable} {h h' : Heap}

/-- Can a value be stored in slots of a type? Scalars can, since storing converts them. -/
def Offers (S : Shapes) (ty : Ty) (v : Variable) : Prop := ty.isReference = true → S.Has ty v.value

/-- Is a value one that a slot of a type takes? It needs no conversion, or is no reference and is converted to none. -/
def Stores (S : Shapes) (ty : Ty) (v : Variable) : Prop :=
  S.Has ty v.value ∨ ty.isReference = false ∧ v.value.scalarText?.isSome = true

theorem Has.fits {v : Value Ref} (hv : S.Has src v) (fits : ty.Fits src) : S.Has ty v := by
  rcases fits with rfl | ⟨reference, rfl⟩
  · exact hv
  · rw [show v = .null from hv]
    exact .of_null reference

theorem Has.offers (hv : S.Has ty v.value) : S.Offers ty v := fun _ => hv

theorem offers_of_scalar (scalar : ty.isReference = false) (S : Shapes) (v : Variable) :
    S.Offers ty v := fun reference => by
  rw [scalar] at reference
  cases reference

theorem Stores.offers (hv : S.Stores ty v) : S.Offers ty v := by
  rcases hv with has | ⟨scalar, _⟩
  · exact has.offers
  · exact offers_of_scalar scalar S v

theorem Offers.convertValue (hv : S.Offers ty v) {value : Value Ref}
    (hc : h.convertValue ty v = .ok value) : S.Has ty value := by
  have scalar {α : Type} {r : Except Fault α} {f : α → Value Ref}
      (hr : r.map f = .ok value) : ∃ a, value = f a := by
    cases r with
    | error => cases hr
    | ok a => cases hr; exact ⟨a, rfl⟩
  cases ty with
  | void => cases hc; rfl
  | bool => exact scalar hc
  | int => exact scalar hc
  | float => exact scalar hc
  | string => exact scalar hc
  | _ =>
    have has := hv rfl
    unfold Heap.convertValue at hc
    dsimp only at hc
    split at hc
    · cases hc
    all_goals
      cases hc
      simp_all [Has]

theorem convertValue_of_marks {mark : Ty} (hm : ty.Marks mark) (h : Heap) (v : Variable) :
    h.convertValue mark v = h.convertValue ty v := by
  rcases hm with rfl | ⟨reference, marked⟩
  · rfl
  · cases ty <;> cases reference <;> cases mark <;> cases marked <;> rfl

end Shapes

namespace MarkedShapes

variable {S : MarkedShapes} {ty src : Ty} {v w : Variable} {h : Heap}

theorem HasTemp.fits (hv : S.HasTemp src v) (fits : ty.Fits src) : S.HasTemp ty v := by
  refine ⟨?_, hv.2.fits fits⟩
  rcases fits with rfl | ⟨reference, rfl⟩
  · exact hv.1
  · exact S.marking.null reference hv.1

theorem hasTemp_of_assign {dst : Variable} (admits : S.marking.Admits ty dst.ty) (hv : S.Offers ty v)
    (ha : h.assign dst v = .ok w) : S.HasTemp ty w ∧ w.id = dst.id := by
  unfold Heap.assign at ha
  rw [Shapes.convertValue_of_marks (S.marking.marks admits)] at ha
  cases hc : h.convertValue ty v with
  | error => rw [hc] at ha; cases ha
  | ok value =>
    rw [hc] at ha
    cases ha
    exact ⟨⟨admits, hv.convertValue hc⟩, rfl⟩

theorem hasTemp_of_convert (hv : S.Offers ty v) (hc : h.convert v ty = .ok w) : S.HasTemp ty w :=
  (hasTemp_of_assign (S.marking.refl ty) hv hc).1

theorem hasTemp_ofBool (S : MarkedShapes) (b : Bool) : S.HasTemp .bool (Slot.ofBool b) :=
  ⟨S.marking.refl _, b, rfl⟩

theorem hasTemp_ofInt (S : MarkedShapes) (i : Int32) : S.HasTemp .int (Slot.ofInt i) :=
  ⟨S.marking.refl _, i, rfl⟩

theorem hasTemp_ofFloat (S : MarkedShapes) (x : Binary32) : S.HasTemp .float (Slot.ofFloat x) :=
  ⟨S.marking.refl _, x, rfl⟩

theorem hasTemp_ofString (S : MarkedShapes) (s : String) : S.HasTemp .string (Slot.ofString s) :=
  ⟨S.marking.refl _, s, rfl⟩

theorem hasTemp_ofVoid (S : MarkedShapes) : S.HasTemp .void Slot.ofVoid := ⟨S.marking.refl _, rfl⟩

theorem hasTemp_ofNull (S : MarkedShapes) (reference : ty.isReference = true) : S.HasTemp ty (Slot.ofNull ty) :=
  ⟨S.marking.refl _, .of_null reference⟩

end MarkedShapes

theorem ok_of_bind_except {α β : Type} {c : Except Fault α} {f : α → Except Fault β} {b : β}
    (h : (c >>= f) = .ok b) : ∃ a, c = .ok a ∧ f a = .ok b := by
  cases c with
  | error => cases h
  | ok a => exact ⟨a, rfl, h⟩

namespace MarkedShapes

variable {S S' : MarkedShapes} {ty : Ty} {v w : Variable} {h : Heap}

theorem hasTemp_binary (S : MarkedShapes) {op : BinaryOp} (suits : op.Suits ty) {result : Variable}
    (hb : h.binary op v w ty = .ok result) :
    S.HasTemp (if op.isComparison then .bool else ty) result := by
  cases ty with
  | int =>
    obtain ⟨a, _, hb⟩ := ok_of_bind_except hb
    obtain ⟨b, _, hb⟩ := ok_of_bind_except hb
    split at hb
    case isTrue comparison =>
      cases hb
      exact if_pos comparison ▸ hasTemp_ofBool S _
    case isFalse arithmetic =>
      obtain ⟨i, _, hb⟩ := ok_of_bind_except hb
      cases hb
      exact if_neg arithmetic ▸ hasTemp_ofInt S i
  | float =>
    obtain ⟨a, _, hb⟩ := ok_of_bind_except hb
    obtain ⟨b, _, hb⟩ := ok_of_bind_except hb
    split at hb
    case isTrue comparison =>
      cases hb
      exact if_pos comparison ▸ hasTemp_ofBool S _
    case isFalse arithmetic =>
      obtain ⟨x, _, hb⟩ := ok_of_bind_except hb
      cases hb
      exact if_neg arithmetic ▸ hasTemp_ofFloat S x
  | bool =>
    obtain ⟨a, _, hb⟩ := ok_of_bind_except hb
    obtain ⟨b, _, hb⟩ := ok_of_bind_except hb
    cases hb
    rw [ite_self]
    exact hasTemp_ofBool S _
  | string =>
    obtain ⟨a, _, hb⟩ := ok_of_bind_except hb
    obtain ⟨b, _, hb⟩ := ok_of_bind_except hb
    split at hb
    case isTrue add =>
      rw [add]
      split at hb
      · cases hb
      · cases hb
        exact hasTemp_ofString S _
    case isFalse other =>
      cases hb
      rw [if_pos (suits.resolve_left other)]
      exact hasTemp_ofBool S _
  | _ =>
    obtain ⟨same, _, hb⟩ := ok_of_bind_except hb
    cases hb
    have comparison : op.isComparison = true := suits
    rw [if_pos comparison]
    exact hasTemp_ofBool S _

theorem ok_of_map {α β : Type} {c : Except Fault α} {f : α → β} {b : β} (h : c.map f = .ok b) :
    ∃ a, c = .ok a ∧ b = f a := by
  cases c with
  | error => cases h
  | ok a => cases h; exact ⟨a, rfl, rfl⟩

theorem HasTemp.unary {op : UnaryOp} (hv : S.HasTemp ty v)
    (admits : Compiler.unaryAdmits op ty = true) (hu : v.unary op = .ok w) : S.HasTemp ty w := by
  unfold Slot.unary at hu
  cases op with
  | neg =>
    cases ty with
    | int =>
      rw [(S.marking.marks hv.1).eq rfl] at hu
      obtain ⟨i, _, rfl⟩ := ok_of_map hu
      exact hasTemp_ofInt S _
    | float =>
      rw [(S.marking.marks hv.1).eq rfl] at hu
      obtain ⟨x, _, rfl⟩ := ok_of_map hu
      exact hasTemp_ofFloat S _
    | _ => cases admits
  | not =>
    obtain ⟨b, _, rfl⟩ := ok_of_map hu
    rw [of_decide_eq_true admits]
    exact hasTemp_ofBool S _
  | complement =>
    obtain ⟨i, _, rfl⟩ := ok_of_map hu
    rw [of_decide_eq_true admits]
    exact hasTemp_ofInt S _

theorem HasSlot.step {up : Bool} (hv : S.HasSlot ty v) (numeric : ty.isNumeric = true)
    (hs : v.step up = .ok w) : S.HasTemp ty v ∧ S.HasTemp ty w ∧ w.id = v.id := by
  obtain ⟨marks, unassigned | has⟩ := hv
  · unfold Slot.step at hs
    rw [unassigned] at hs
    cases hs
  · refine ⟨⟨marks, has⟩, ?_⟩
    unfold Slot.step at hs
    cases ty with
    | int =>
      obtain ⟨i, hi⟩ := has
      rw [hi] at hs
      cases hs
      exact ⟨⟨marks, _, rfl⟩, rfl⟩
    | float =>
      obtain ⟨x, hx⟩ := has
      rw [hx] at hs
      cases hs
      exact ⟨⟨marks, _, rfl⟩, rfl⟩
    | _ => cases numeric

/-- A computation on storage yields a variable of a type, and storage that is typed by the old shapes
and new ones. -/
def Makes (S : MarkedShapes) (ty : Ty) (r : Variable × Heap) : Prop :=
  ∃ S', S.Le S' ∧ S'.Describes r.2 ∧ S'.HasTemp ty r.1

theorem Describes.makes_array {elem : Ty} (hS : S.Describes h) {slots : Array Variable}
    (hs : ∀ v ∈ slots, S.HasSlot elem v) :
    S.Makes (.array elem) (Slot.temp (.array elem) (.array (h.alloc slots).1), (h.alloc slots).2) :=
  ⟨S.alloc h (.array elem), hS.le_alloc _, hS.alloc (fills_array.2 hs),
    S.marking.refl _, .inr ⟨h.size, rfl, S.alloc_at h _⟩⟩

theorem Describes.makes_newArray {elem : Ty} {vs : List Variable} (hS : S.Describes h)
    (hs : ∀ v ∈ vs, S.HasSlot elem v) : S.Makes (.array elem) (h.newArray elem vs) :=
  hS.makes_array fun v hv => hs v (Array.mem_def.1 hv)

theorem Describes.makes_newObject (hS : S.Describes h) {cls : ClassLayout}
    (known : S.class? cls.name = some cls) : S.Makes (.named cls.name) (h.newObject cls) := by
  refine ⟨S.alloc h (.object cls), hS.le_alloc _, hS.alloc ⟨fun k v hk => ?_, fun _ hc => ?_⟩,
    S.marking.refl _, .inr ⟨h.size, cls, rfl, known, S.alloc_at h _⟩⟩
  · rw [List.getElem?_toArray, List.getElem?_map] at hk
    cases hf : cls.fields[k]? with
    | none => rw [hf] at hk; cases hk
    | some f =>
      rw [hf] at hk
      cases hk
      refine ⟨f.ty, ?_, (hasTemp_zeroed S f.ty).slot⟩
      change (cls.fields[k]?).map Field.ty = some f.ty
      rw [hf]
      rfl
  · cases hc
    simp

theorem Describes.repeatMake {elem : Ty} {make : Heap → Variable × Heap}
    (hm : ∀ {S : MarkedShapes} {h : Heap}, S.Describes h → S.Makes elem (make h)) (count : Nat) {made : Array Variable}
    (hS : S.Describes h) (hs : ∀ v ∈ made, S.HasSlot elem v) :
    ∃ S', S.Le S' ∧ S'.Describes (Heap.repeatMake make count made h).2 ∧
      ∀ v ∈ (Heap.repeatMake make count made h).1, S'.HasSlot elem v := by
  induction count generalizing S made h with
  | zero => exact ⟨S, .refl S, hS, hs⟩
  | succ count ih =>
    obtain ⟨S₁, le, described, has⟩ := hm hS
    have pushed : ∀ v ∈ made.push (make h).1, S₁.HasSlot elem v := fun v hv => by
      rcases Array.mem_push.1 hv with old | rfl
      · exact (hs v old).mono le
      · exact has.slot
    obtain ⟨S₂, le', described', slots⟩ := ih described pushed
    exact ⟨S₂, le.trans le', described', slots⟩

theorem Describes.makes_buildArray (ty : Ty) (sizes : List Nat) (hS : S.Describes h) :
    S.Makes ty (Heap.buildArray ty sizes h) := by
  induction ty generalizing S sizes h with
  | array elem ih =>
    have none : ∀ v ∈ (#[] : Array Variable), S.HasSlot elem v :=
      fun v hv => absurd hv (Array.not_mem_empty v)
    obtain ⟨S₁, le, described, slots⟩ :=
      hS.repeatMake (fun hS => ih sizes.tail hS) (sizes.headD 0) none
    obtain ⟨S₂, le', made⟩ := described.makes_array slots
    exact ⟨S₂, le.trans le', made⟩
  | _ => exact ⟨S, .refl S, hS, hasTemp_zeroed S _⟩

theorem Describes.makes_allocArray {sizes : List Int32} {r : Variable × Heap} (hS : S.Describes h)
    (ha : h.allocArray ty sizes = .ok r) : S.Makes ty r := by
  obtain ⟨counts, _, rfl⟩ := ok_of_map ha
  exact hS.makes_buildArray ty counts

end MarkedShapes
end Tickwise
