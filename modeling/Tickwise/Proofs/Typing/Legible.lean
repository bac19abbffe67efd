import Tickwise.Machine.Exec
import Tickwise.Proofs.Native.Plain
import Tickwise.Proofs.Storage.Layout
import Tickwise.Proofs.Typing.Natives
set_option autoImplicit false

/-!
# Texts of typed values

Arrays of typed storage are nested no deeper than their types, and an object within an object is only named. So every
typed value has a text, and no conversion of one crashes. Nor does a native of the library.
-/
namespace Tickwise

theorem Slot.locked_of_scalar {ref : Ref} {v : Variable} (scalar : v.value.scalarText?.isSome = true) :
    v.locked ref = v := by
  unfold locked
  cases hv : v.value <;> simp_all [Value.scalarText?]

/-- What has a text by itself is stored as a string even while the storage around it is locked. -/
theorem Exec.storeCrash?_of_scalar {ty : Ty} {v : Variable} (scalar : ty = .string → v.value.scalarText?.isSome = true)
    (storage : Storage) (h : Heap) : storeCrash? storage ty v h = none := by
  by_cases isString : ty = .string
  · have text := scalar isString
    cases storage with
    | var id => exact Heap.crash?_of_scalar text
    | cell ref position =>
      unfold storeCrash?
      dsimp only
      rw [Slot.locked_of_scalar text, Heap.crash?_of_scalar text, Heap.crash?_of_scalar text]
      rfl
  · cases storage with
    | var id => exact Heap.crash?_of_ne isString
    | cell ref position =>
      unfold storeCrash?
      dsimp only
      rw [Heap.crash?_of_ne isString, Heap.crash?_of_ne isString]
      rfl

namespace MarkedShapes

variable {S : MarkedShapes} {h : Heap} {ty dst : Ty} {v : Variable} {inside : Bool}

/-- A typed value has a text if the objects that are expanded in it have texts of their fields. -/
theorem Describes.isSome_render (described : S.Describes h) (hv : v.value = .unassigned ∨ S.Has ty v.value)
    (fields : inside = true ∨ ∀ r cls, S.at? r = some (.object cls) → h.legible h.textFuel true r = true) :
    (h.render h.textFuel inside v).isSome = true := by
  induction ty generalizing v with
  | array elem ih =>
    rw [Heap.isSome_render_textFuel]
    rcases hv with value | value | ⟨r, value, at_⟩ <;> rw [value]
    exact List.all_eq_true.2 fun e he => ih (fills_array.1 (described.fills at_) e (Array.mem_toList_iff.1 he)).2
  | named c =>
    rw [Heap.isSome_render_textFuel]
    rcases hv with value | value | ⟨r, cls, value, _, at_⟩ <;> rw [value]
    rcases fields with rfl | fields
    · rfl
    · exact Bool.or_eq_true_iff.2 (.inr (fields r cls at_))
  | void | null =>
    rw [Heap.isSome_render_textFuel]
    rcases hv with value | value <;> rw [value]
  | _ =>
    rw [Heap.isSome_render_textFuel]
    rcases hv with value | ⟨_, value⟩ <;> rw [value]

theorem Describes.legible (described : S.Describes h) {r : Ref} {shape : Shape} (at_ : S.at? r = some shape) :
    h.legible h.textFuel true r = true := by
  refine List.all_eq_true.2 fun e he => ?_
  obtain ⟨ty, slot⟩ := (described.fills at_).slots e he
  exact described.isSome_render slot.2 (.inl rfl)

theorem Describes.isSome_text? (described : S.Describes h) (hv : v.value = .unassigned ∨ S.Has ty v.value) :
    (h.text? v).isSome = true :=
  described.isSome_render hv (.inr fun _ _ at_ => described.legible at_)

theorem HasSlot.rendered (hv : S.HasSlot ty v) (described : S.Describes h) : ∃ o, h.Rendered v o :=
  Heap.exists_rendered (described.isSome_text? hv.2)

theorem Describes.crash?_eq_none (described : S.Describes h) (hv : v.value = .unassigned ∨ S.Has ty v.value) :
    h.crash? dst v = none :=
  Heap.crash?_of_text (described.isSome_text? hv)

theorem storeCrash?_eq_none {mark : Ty} (admits : S.marking.Admits ty mark) (hv : S.Stores ty v) (storage : Storage)
    (h : Heap) : Exec.storeCrash? storage mark v h = none := by
  refine Exec.storeCrash?_of_scalar (fun isString => ?_) storage h
  rcases hv with has | ⟨_, scalar⟩
  · rcases S.marking.marks admits with rfl | ⟨_, reference⟩
    · subst isString
      obtain ⟨s, value⟩ := has
      rw [value]
      rfl
    · rw [isString] at reference
      cases reference
  · exact scalar

end MarkedShapes

theorem MarkedShapes.Describes.bindCrash?_eq_none {S : MarkedShapes} {h : Heap} (described : S.Describes h)
    {params : List Parameter} {args : List Variable} (has : params.Forall₂ (fun q v => S.Has q.ty v.value) args) :
    Exec.bindCrash? h params args = none := by
  induction has with
  | nil => rfl
  | cons hv _ ih =>
    unfold Exec.bindCrash?
    rw [described.crash?_eq_none (.inr hv), ih]
    exact ite_self none

/-!
## The library
-/

theorem Shapes.Takes.has {S : Shapes} {param : ParamType} {v : Value Ref} (takes : S.Takes param v) :
    ∃ ty, S.Has ty v := by
  cases param with
  | exact ty => exact ⟨ty, takes⟩
  | anyArray =>
    obtain ⟨elem, has⟩ := takes
    exact ⟨.array elem, has⟩
  | any =>
    obtain ⟨ty, _, has⟩ := takes
    exact ⟨ty, has⟩

theorem Shapes.Has.of_fits {S : Shapes} {ty : Ty} {v : Value Ref} (fits : v.fits ty = true)
    (assigned : v.isUnassigned = false) (storage : v.storage? = none) : S.Has ty v := by
  cases v with
  | unassigned => cases assigned
  | array | object => cases storage
  | null => exact .of_null fits
  | _ =>
    cases ty with
    | void => first | rfl | cases fits
    | _ => first | exact ⟨_, rfl⟩ | cases fits

namespace NativeFn.Plain

variable {f : NativeFn}

theorem keepsTypes (plain : f.Plain) (class? : String → Option ClassLayout) : f.KeepsTypes class? := by
  intro S c _ described _
  refine ⟨S, .refl S, (plain.heap c).symm ▸ described, fun v done => ?_⟩
  obtain ⟨init, fits⟩ := plain.fits c v done
  exact .of_fits fits (by simpa [Slot.isInit] using init) (plain.storage c v done)

theorem returns (plain : f.Plain) (class? : String → Option ClassLayout) : f.Returns class? := by
  intro S c _ described args crash crashed
  obtain ⟨v, hv, none⟩ := plain.crashed c crash crashed
  obtain ⟨param, _, takes⟩ := forall₂_exists_left args hv
  obtain ⟨ty, has⟩ := takes.has
  have typed : MarkedShapes.Describes ⟨S, .loose⟩ c.heap := Shapes.describes_loose.2 described
  have text := typed.isSome_text? (.inr has)
  rw [none] at text
  cases text

end NativeFn.Plain
end Tickwise
