import Tickwise.Proofs.Storage.Heap
set_option autoImplicit false

/-!
# Typed storage

A shape for each piece of storage says of which type its slots are. Values are typed relative to the
shapes, which storage keeps as long as it exists, so what is typed stays so when storage is made or
written.
-/
namespace Tickwise

/-- What a piece of storage is. -/
inductive Shape where
  | array (elem : Ty)
  | object (cls : ClassLayout)

def Shape.slot? : Shape → Nat → Option Ty
  | array elem, _ => some elem
  | object cls, k => (cls.fields[k]?).map Field.ty

/-- The shapes of storage, and the classes that objects are of. -/
structure Shapes where
  class? : String → Option ClassLayout
  at? : Ref → Option Shape

/-- Does a slot of a type marked so hold values of type `ty`? All references are held alike. -/
def Ty.Marks (ty mark : Ty) : Prop :=
  mark = ty ∨ ty.isReference = true ∧ mark.isReference = true

theorem Ty.Marks.refl (ty : Ty) : ty.Marks ty := .inl rfl

theorem Ty.Marks.eq {ty mark : Ty} (h : ty.Marks mark) (scalar : ty.isReference = false) :
    mark = ty := by
  rcases h with h | ⟨reference, _⟩
  · exact h
  · rw [scalar] at reference
    cases reference

namespace Shapes

def Has (S : Shapes) : Ty → Value Ref → Prop
  | .void, v => v = .void
  | .bool, v => ∃ b, v = .bool b
  | .int, v => ∃ i, v = .int i
  | .float, v => ∃ x, v = .float x
  | .string, v => ∃ s, v = .string s
  | .null, v => v = .null
  | .array elem, v => v = .null ∨ ∃ r, v = .array r ∧ S.at? r = some (.array elem)
  | .named c, v => v = .null ∨
      ∃ r cls, v = .object c r ∧ S.class? c = some cls ∧ S.at? r = some (.object cls)

def HasSlot (S : Shapes) (ty : Ty) (v : Variable) : Prop :=
  ty.Marks v.ty ∧ (v.value = .unassigned ∨ S.Has ty v.value)

def Fills (S : Shapes) (shape : Shape) (slots : Array Variable) : Prop :=
  (∀ k v, slots[k]? = some v → ∃ ty, shape.slot? k = some ty ∧ S.HasSlot ty v) ∧
    ∀ cls, shape = .object cls → slots.size = cls.fields.length

structure Describes (S : Shapes) (h : Heap) : Prop where
  bounded : ∀ {r shape}, S.at? r = some shape → r < h.size
  fills : ∀ {r shape}, S.at? r = some shape → S.Fills shape (h.elements r)

/-- The same shapes, and others for new storage. -/
structure Le (S S' : Shapes) : Prop where
  classes : S'.class? = S.class?
  shapes : ∀ {r shape}, S.at? r = some shape → S'.at? r = some shape

theorem Le.refl (S : Shapes) : S.Le S := ⟨rfl, id⟩

theorem Le.trans {S S' S'' : Shapes} (h : S.Le S') (h' : S'.Le S'') : S.Le S'' :=
  ⟨h'.classes.trans h.classes, fun hr => h'.shapes (h.shapes hr)⟩

variable {S S' : Shapes} {ty : Ty}

theorem Has.mono (hS : S.Le S') {v : Value Ref} (hv : S.Has ty v) : S'.Has ty v := by
  cases ty with
  | array elem =>
    rcases hv with hv | ⟨r, hv, at_⟩
    · exact .inl hv
    · exact .inr ⟨r, hv, hS.shapes at_⟩
  | named c =>
    rcases hv with hv | ⟨r, cls, hv, known, at_⟩
    · exact .inl hv
    · exact .inr ⟨r, cls, hv, (congrFun hS.classes c).trans known, hS.shapes at_⟩
  | _ => exact hv

theorem Has.of_null (reference : ty.isReference = true) : S.Has ty .null := by
  cases ty with
  | null => rfl
  | array elem => exact .inl rfl
  | named c => exact .inl rfl
  | _ => cases reference

theorem has_zero (S : Shapes) (ty : Ty) : S.Has ty (Value.zero ty) := by
  cases ty <;> simp [Value.zero, Has]

end Shapes

/-- How slots of each type may be marked: with the type itself, and slots of reference types in such ways
too as the slots that hold null. -/
structure Marking where
  Admits : Ty → Ty → Prop
  refl : ∀ ty, Admits ty ty
  marks : ∀ {ty mark}, Admits ty mark → ty.Marks mark
  null : ∀ {ty mark}, ty.isReference = true → Admits .null mark → Admits ty mark

namespace Marking

def loose : Marking where
  Admits := Ty.Marks
  refl := .refl
  marks := id
  null := by
    rintro ty mark reference (rfl | ⟨_, marked⟩)
    · exact .inr ⟨reference, rfl⟩
    · exact .inr ⟨reference, marked⟩

/-- Slots are marked with their types, or as slots of the literal `null`. -/
def close : Marking where
  Admits ty mark := mark = ty ∨ ty.isReference = true ∧ mark = .null
  refl _ := .inl rfl
  marks := by
    rintro ty mark (same | ⟨reference, rfl⟩)
    · exact .inl same
    · exact .inr ⟨reference, rfl⟩
  null := by
    rintro ty mark reference (rfl | ⟨_, rfl⟩) <;> exact .inr ⟨reference, rfl⟩

end Marking

structure MarkedShapes extends Shapes where
  marking : Marking

namespace MarkedShapes

def HasTemp (S : MarkedShapes) (ty : Ty) (v : Variable) : Prop :=
  S.marking.Admits ty v.ty ∧ S.Has ty v.value

def HasSlot (S : MarkedShapes) (ty : Ty) (v : Variable) : Prop :=
  S.marking.Admits ty v.ty ∧ (v.value = .unassigned ∨ S.Has ty v.value)

def Fills (S : MarkedShapes) (shape : Shape) (slots : Array Variable) : Prop :=
  (∀ k v, slots[k]? = some v → ∃ ty, shape.slot? k = some ty ∧ S.HasSlot ty v) ∧
    ∀ cls, shape = .object cls → slots.size = cls.fields.length

structure Describes (S : MarkedShapes) (h : Heap) : Prop where
  bounded : ∀ {r shape}, S.at? r = some shape → r < h.size
  fills : ∀ {r shape}, S.at? r = some shape → S.Fills shape (h.elements r)

/-- The same shapes and marking, and shapes of new storage. -/
structure Le (S S' : MarkedShapes) : Prop extends Shapes.Le S.toShapes S'.toShapes where
  marking : S'.marking = S.marking

theorem Le.refl (S : MarkedShapes) : S.Le S := ⟨.refl _, rfl⟩

theorem Le.trans {S S' S'' : MarkedShapes} (h : S.Le S') (h' : S'.Le S'') : S.Le S'' :=
  ⟨h.toLe.trans h'.toLe, h'.marking.trans h.marking⟩

variable {S S' : MarkedShapes} {ty : Ty} {v : Variable} {h : Heap} {shape : Shape} {r : Ref}

theorem HasTemp.mono (hS : S.Le S') (hv : S.HasTemp ty v) : S'.HasTemp ty v :=
  ⟨hS.marking ▸ hv.1, hv.2.mono hS.toLe⟩

theorem HasSlot.mono (hS : S.Le S') (hv : S.HasSlot ty v) : S'.HasSlot ty v :=
  ⟨hS.marking ▸ hv.1, hv.2.imp_right (Shapes.Has.mono hS.toLe)⟩

theorem HasTemp.slot (hv : S.HasTemp ty v) : S.HasSlot ty v := ⟨hv.1, .inr hv.2⟩

theorem HasSlot.temp (hv : S.HasSlot ty v) (init : v.isInit = true) : S.HasTemp ty v := by
  obtain ⟨marks, unassigned | has⟩ := hv
  · rw [Slot.isInit, unassigned] at init
    cases init
  · exact ⟨marks, has⟩

theorem hasTemp_zeroed (S : MarkedShapes) (ty : Ty) : S.HasTemp ty (Slot.zeroed ty) :=
  ⟨S.marking.refl ty, S.has_zero ty⟩

theorem hasSlot_fresh (S : MarkedShapes) (ty : Ty) : S.HasSlot ty (Slot.fresh ty) := by
  refine ⟨S.marking.refl ty, ?_⟩
  by_cases hv : ty = .void
  · subst hv
    exact .inr rfl
  · exact .inl (if_neg hv)

theorem Fills.mono (hS : S.Le S') {slots : Array Variable} (hf : S.Fills shape slots) :
    S'.Fills shape slots := by
  refine ⟨fun k v hk => ?_, hf.2⟩
  obtain ⟨ty, slot, has⟩ := hf.1 k v hk
  exact ⟨ty, slot, has.mono hS⟩

theorem fills_array {elem : Ty} {slots : Array Variable} :
    S.Fills (.array elem) slots ↔ ∀ v ∈ slots, S.HasSlot elem v := by
  constructor
  · intro hf v hv
    obtain ⟨k, hk, rfl⟩ := Array.mem_iff_getElem.1 hv
    obtain ⟨ty, slot, has⟩ := hf.1 k _ (Array.getElem?_eq_getElem hk)
    cases slot
    exact has
  · intro hs
    exact ⟨fun k v hk => ⟨elem, rfl, hs v (Array.mem_of_getElem? hk)⟩, nofun⟩

theorem Fills.slots {slots : Array Variable} (hf : S.Fills shape slots) : ∀ v ∈ slots.toList, ∃ ty, S.HasSlot ty v := by
  intro v hv
  obtain ⟨k, found⟩ := List.mem_iff_getElem?.1 hv
  rw [Array.getElem?_toList] at found
  obtain ⟨ty, _, slot⟩ := hf.1 k v found
  exact ⟨ty, slot⟩

def alloc (S : MarkedShapes) (h : Heap) (shape : Shape) : MarkedShapes :=
  { S with at? := fun r => if r = h.size then some shape else S.at? r }

theorem alloc_at (S : MarkedShapes) (h : Heap) (shape : Shape) :
    (S.alloc h shape).at? h.size = some shape := if_pos rfl

namespace Describes

theorem le_alloc (hS : S.Describes h) (shape : Shape) : S.Le (S.alloc h shape) := by
  refine ⟨⟨rfl, fun {r _} hr => ?_⟩, rfl⟩
  have fresh : r ≠ h.size := Nat.ne_of_lt (hS.bounded hr)
  exact (if_neg fresh).trans hr

theorem alloc (hS : S.Describes h) {slots : Array Variable} (hf : S.Fills shape slots) :
    (S.alloc h shape).Describes (h.alloc slots).2 := by
  have le := hS.le_alloc shape
  constructor
  · intro r shape' hr
    rw [Heap.size_alloc]
    by_cases fresh : r = h.size
    · exact fresh ▸ Nat.lt_succ_self _
    · exact Nat.lt_succ_of_lt (hS.bounded ((if_neg fresh).symm.trans hr))
  · intro r shape' hr
    rw [Heap.elements_alloc]
    by_cases fresh : r = h.size
    · subst fresh
      cases (if_pos rfl).symm.trans hr
      rw [if_pos rfl]
      exact hf.mono le
    · rw [if_neg fresh]
      exact (hS.fills ((if_neg fresh).symm.trans hr)).mono le

theorem write (hS : S.Describes h) (hr : S.at? r = some shape) {k : Nat}
    (slot : shape.slot? k = some ty) (hv : S.HasSlot ty v) : S.Describes (h.write r k v) := by
  constructor
  · intro q shape' hq
    rw [Heap.size_write]
    exact hS.bounded hq
  · intro q shape' hq
    rw [Heap.elements_write]
    by_cases same : q = r
    · subst same
      cases hr.symm.trans hq
      rw [if_pos rfl]
      obtain ⟨slots, size⟩ := hS.fills hr
      refine ⟨fun j w hj => ?_, fun cls hc => (Array.size_setIfInBounds).trans (size cls hc)⟩
      rw [Array.getElem?_setIfInBounds] at hj
      split at hj
      case isTrue here =>
        subst here
        split at hj
        · cases hj
          exact ⟨ty, slot, hv⟩
        · cases hj
      case isFalse => exact slots j w hj
    · rw [if_neg same]
      exact hS.fills hq

theorem extend {elem : Ty} (hS : S.Describes h) (hr : S.at? r = some (.array elem))
    (hv : S.HasSlot elem v) (n : Nat) : S.Describes (h.extend r n v) := by
  constructor
  · intro q shape' hq
    rw [Heap.size_extend]
    exact hS.bounded hq
  · intro q shape' hq
    rw [Heap.elements_extend (hS.bounded hr)]
    by_cases same : q = r
    · subst same
      cases hr.symm.trans hq
      rw [if_pos rfl]
      refine fills_array.2 fun w hw => ?_
      rcases Array.mem_append.1 hw with old | new
      · exact fills_array.1 (hS.fills hr) w old
      · rw [Array.eq_of_mem_replicate new]
        exact hv
    · rw [if_neg same]
      exact hS.fills hq

end Describes
end MarkedShapes

theorem MarkedShapes.Describes.toShapes {S : MarkedShapes} {h : Heap} (described : S.Describes h) :
    S.toShapes.Describes h := by
  refine ⟨described.bounded, fun at_ => ?_⟩
  obtain ⟨slots, size⟩ := described.fills at_
  refine ⟨fun k v hk => ?_, size⟩
  obtain ⟨ty, slot, admits, value⟩ := slots k v hk
  exact ⟨ty, slot, S.marking.marks admits, value⟩

theorem Shapes.describes_loose {S : Shapes} {h : Heap} :
    MarkedShapes.Describes ⟨S, .loose⟩ h ↔ S.Describes h :=
  ⟨fun d => ⟨d.bounded, d.fills⟩, fun d => ⟨d.bounded, d.fills⟩⟩

end Tickwise
