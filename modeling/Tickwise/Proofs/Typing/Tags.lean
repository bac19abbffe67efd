import Tickwise.Proofs.Codec.Execution
import Tickwise.Proofs.Typing.Visits
set_option autoImplicit false

/-!
# Slots of the wrong type

A slot is read back only if its value fits the type that it is marked with. With slots marked closely, all
those of typed storage are read back but for slots of the literal `null` that came to hold an array or an
object.
-/
namespace Tickwise

/-- A slot of the type of the literal `null` that holds an array or an object. -/
def Slot.Strays {ρ : Type} (v : Slot ρ) : Prop := v.ty = .null ∧ v.value.storage? ≠ none

/-- Does a variable hold no such slot, however deep? -/
def Heap.Strayless (h : Heap) (v : Variable) : Prop := ∀ w, h.Holds v w → ¬ w.Strays

namespace Shapes

variable {S : Shapes} {ty : Ty} {v : Value Ref}

theorem Has.value_fits (hv : S.Has ty v) : v.fits ty = true := by
  cases ty with
  | array elem => rcases hv with rfl | ⟨r, rfl, _⟩ <;> rfl
  | named c => rcases hv with rfl | ⟨r, cls, rfl, _⟩ <;> rfl
  | void | null =>
    cases hv
    rfl
  | _ =>
    obtain ⟨_, rfl⟩ := hv
    rfl

theorem Has.fits_null_iff (hv : S.Has ty v) (reference : ty.isReference = true) :
    v.fits .null = true ↔ v.storage? = none := by
  have null : (Value.null : Value Ref).fits .null = true ↔ (Value.null : Value Ref).storage? = none :=
    iff_of_true rfl rfl
  cases ty with
  | array elem =>
    rcases hv with rfl | ⟨r, rfl, _⟩
    · exact null
    · exact iff_of_false nofun nofun
  | named c =>
    rcases hv with rfl | ⟨r, cls, rfl, _⟩
    · exact null
    · exact iff_of_false nofun nofun
  | null =>
    cases hv
    exact null
  | _ => cases reference

end Shapes

namespace MarkedShapes

variable {S : MarkedShapes} {h : Heap} {ty : Ty} {v w : Variable}

theorem HasSlot.fits_iff (hv : S.HasSlot ty v) (close : S.marking = .close) :
    v.value.fits v.ty = true ↔ ¬ v.Strays := by
  obtain ⟨admits, value⟩ := hv
  rw [close] at admits
  unfold Slot.Strays
  rcases value with unassigned | has
  · rw [unassigned]
    exact iff_of_true rfl fun ⟨_, stored⟩ => stored rfl
  · rcases admits with same | ⟨reference, null⟩
    · rw [same]
      refine iff_of_true has.value_fits fun ⟨null, stored⟩ => stored ?_
      subst null
      exact (has.fits_null_iff rfl).1 has.value_fits
    · rw [null, has.fits_null_iff reference]
      simp

theorem HasSlot.entry (hv : S.HasSlot ty v) (described : S.Describes h) {e : Variable} (he : e ∈ h.entries v) :
    ∃ ty', S.HasSlot ty' e := by
  obtain ⟨_, value⟩ := hv
  unfold Heap.entries at he
  have stored {r : Ref} {shape : Shape} (at_ : S.at? r = some shape) (he : e ∈ (h.elements r).toList) :
      ∃ ty', S.HasSlot ty' e := (described.fills at_).slots e he
  rcases value with unassigned | has
  · rw [unassigned] at he
    cases he
  · cases ty with
    | array elem =>
      rcases has with value | ⟨r, value, at_⟩ <;> rw [value] at he
      · cases he
      · exact stored at_ he
    | named c =>
      rcases has with value | ⟨r, cls, value, _, at_⟩ <;> rw [value] at he
      · cases he
      · exact stored at_ he
    | void | null =>
      rw [show v.value = _ from has] at he
      cases he
    | _ =>
      obtain ⟨_, value⟩ := has
      rw [value] at he
      cases he

theorem HasSlot.held (hv : S.HasSlot ty v) (described : S.Describes h) (held : h.Holds v w) :
    ∃ ty', S.HasSlot ty' w := by
  induction held generalizing ty with
  | self => exact ⟨ty, hv⟩
  | entry first _ ih =>
    obtain ⟨_, slot⟩ := hv.entry described first
    exact ih slot

theorem HasSlot.fitsThroughout_iff (hv : S.HasSlot ty v) (described : S.Describes h)
    (close : S.marking = .close) : h.FitsThroughout v ↔ h.Strayless v := by
  refine forall₂_congr fun w held => ?_
  obtain ⟨_, slot⟩ := hv.held described held
  exact slot.fits_iff close

end MarkedShapes

theorem MarkedShapes.HasFrame.slots {S : MarkedShapes} {D : Declarations} {f : Frame Variable} (h : S.HasFrame D f) :
    ∀ v ∈ f.slots, ∃ ty, S.HasSlot ty v := by
  refine List.forall_mem_append.2 ⟨fun v operand => ?_, fun v local_ => ?_⟩
  · obtain ⟨ty, temp⟩ := h.operands v operand
    exact ⟨ty, temp.slot⟩
  · obtain ⟨ty, _, slot⟩ := h.locals v local_
    exact ⟨ty, slot⟩

theorem Program.Stands.slots {p : Program} {D : Declarations} {S : MarkedShapes} {x : Execution Variable}
    {s : Session} (h : p.Stands D S x s) :
    S.Describes s.heap ∧ ∀ v ∈ x.slots, ∃ ty, S.HasSlot ty v := by
  rcases h with ⟨f, h⟩ | h
  · refine ⟨h.heap, fun v hv => ?_⟩
    unfold Execution.slots at hv
    rw [h.result] at hv
    obtain ⟨g, hg, hv⟩ := List.mem_flatMap.1 hv
    exact (h.frames g hg).slots v hv
  · refine ⟨h.heap, fun v hv => ?_⟩
    unfold Execution.slots at hv
    rw [h.frames, List.flatMap_nil, List.append_nil] at hv
    obtain ⟨ty, temp⟩ := h.result v (Option.mem_toList.1 hv)
    exact ⟨ty, temp.slot⟩

end Tickwise
