import Tickwise.Codec.Value
import Tickwise.Proofs.Codec.Bytes
import Tickwise.Proofs.Storage.Alike
set_option autoImplicit false

/-!
# Reading back types and variables

A type is read back as it was written. A variable is read back as a tree that it shows, provided that each
slot in it holds what its type allows: that is the one thing that only the reader checks.
-/
namespace Tickwise

/-- Each slot that a variable holds, itself included, has a value that its type allows. -/
def Heap.FitsThroughout (h : Heap) (v : Variable) : Prop := ∀ w, h.Holds v w → w.value.fits w.ty = true

theorem Heap.fitsThroughout_iff {h : Heap} {v : Variable} :
    h.FitsThroughout v ↔ v.value.fits v.ty = true ∧ ∀ e ∈ h.entries v, h.FitsThroughout e :=
  forall_holds_iff

/-- Looks at every slot that a variable holds, if they are nested less than `depth` deep. -/
def Heap.fitsTo (h : Heap) : (depth : Nat) → Variable → Bool
  | 0, _ => false
  | depth + 1, v => v.value.fits v.ty && (h.entries v).all (h.fitsTo depth)

theorem Heap.fitsThroughout_of_fitsTo {h : Heap} {depth : Nat} {v : Variable}
    (fits : h.fitsTo depth v = true) : h.FitsThroughout v := by
  induction depth generalizing v with
  | zero => cases fits
  | succ depth ih =>
    obtain ⟨own, inner⟩ := (Bool.and_eq_true ..).mp fits
    exact fitsThroughout_iff.2 ⟨own, fun e he => ih (List.all_eq_true.1 inner e he)⟩

namespace Codec

theorem readsBack_tag (ty : Ty) : ReadsBack (word ty.tag) readWord True (· = ty.tag) :=
  readsBack_word ty.tag

theorem readsBack_type (room : Nat) (ty : Ty) : ReadsBack (type room ty) (readType room) True (· = ty) := by
  have plain (ty : Ty) (h : plainType? ty.tag = some ty) :
      ReadsBack .nothing ((plainType? ty.tag).elim (throw (.unknownTag ty.tag)) pure : Reader Ty) True
        (· = ty) := by
    rw [h]
    exact .pure rfl
  have name (cls : String) :
      ReadsBack (string cls) (Ty.named <$> readString) True (· = Ty.named cls) :=
    (readsBack_string cls).map fun s same => by rw [same]
  induction room generalizing ty with
  | zero =>
    cases ty with
    | array elem => exact (readsBack_tag (.array elem)).then_ (.malformed ..)
    | named cls => exact (readsBack_tag (.named cls)).then_ (name cls)
    | _ => exact (readsBack_tag _).last (plain _ rfl)
  | succ room ih =>
    cases ty with
    | array elem =>
      exact (readsBack_tag (.array elem)).then_ ((ih elem).map fun t same => by rw [same])
    | named cls => exact (readsBack_tag (.named cls)).then_ (name cls)
    | _ => exact (readsBack_tag _).last (plain _ rfl)

theorem readsBack_value {h : Heap} {child : Variable → Written} {readChild : Reader Tree}
    {P : Variable → Prop} {A : Variable → Tree → Prop}
    (each : ∀ e, ReadsBack (child e) readChild (P e) (A e)) (v : Variable) :
    ReadsBack
      (match v.value with
      | .unassigned | .void | .null => .nothing
      | .bool b => bool b
      | .int i => long i
      | .float x => ulong x.bits.toNat
      | .string s => string s
      | .array r => list child (h.elements r).toList
      | .object cls r => string cls >> list child (h.elements r).toList)
      (readValue readChild (marker v.value)) (∀ e ∈ h.entries v, P e)
      (v.value.Alike fun r ts => List.Forall₂ A (h.elements r).toList ts) := by
  have scalar (holds : v.value.storage? = none) : True ↔ ∀ e ∈ h.entries v, P e := by
    simp [Heap.entries, holds]
  have entries (r : Ref) (holds : v.value.storage? = some r) :
      (∀ e ∈ (h.elements r).toList, P e) ↔ ∀ e ∈ h.entries v, P e := by
    simp [Heap.entries, holds]
  cases hv : v.value with rw [hv] at scalar entries
  | unassigned => exact (ReadsBack.pure .unassigned).iff (scalar rfl)
  | void => exact (ReadsBack.pure .void).iff (scalar rfl)
  | null => exact (ReadsBack.pure .null).iff (scalar rfl)
  | bool b => exact ((readsBack_bool b).mapTo (.bool b)).iff (scalar rfl)
  | int i => exact ((readsBack_long i).mapTo (.int i)).iff (scalar rfl)
  | float x =>
    refine ReadsBack.iff ((readsBack_ulong x.bits.toNat).last (Q := True) ?_) (scalar rfl)
    rw [UInt32.ofNat_toNat]
    exact .pure (.float x)
  | string s => exact ((readsBack_string s).mapTo (.string s)).iff (scalar rfl)
  | array r => exact ((readsBack_list _ each).map fun ts hts => .array hts).iff (entries r rfl)
  | object cls r =>
    refine ReadsBack.iff ((readsBack_string cls).then_ ?_) (entries r rfl)
    have fields := (readsBack_list (h.elements r).toList each).map (f := Value.object cls)
      (B := (Value.object cls r).Alike fun r ts => List.Forall₂ A (h.elements r).toList ts)
      fun ts hts => .object cls hts
    rw [map_eq_pure_bind] at fields
    exact fields

theorem marker_le {ρ : Type} (value : Value ρ) : marker value ≤ 8 := by
  cases value <;> simp [marker]

theorem readsBack_slotIn (h : Heap) (room : Nat) (v : Variable) :
    ReadsBack (slotIn h room v) (readTreeIn room) (h.FitsThroughout v) (h.Shows room v) := by
  induction room generalizing v with
  | zero => exact .unwritten (by simp [slotIn, Written.malformed]) ..
  | succ room ih =>
    refine .then_ (readsBack_word (marker v.value)) ?_
    rw [if_neg (Nat.not_lt.2 (marker_le v.value))]
    refine .then_ (readsBack_ulong v.id) ?_
    refine .then_ (readsBack_optionString v.name) ?_
    refine .then_ (readsBack_type maxDepth v.ty) ?_
    refine .then_ (readsBack_optionString v.label) ?_
    have value := (readsBack_value ih v).check (Q := v.value.fits v.ty = true)
      (f := fun value => if value.fits v.ty then return Tree.mk ⟨v.name, v.id, v.ty, value, v.label⟩
        else fail .valueMismatch) (B := h.Shows (room + 1) v) fun value alike => by
      rw [alike.fits]
      exact .assert _ fun _ => ⟨rfl, rfl, rfl, alike, rfl⟩
    exact value.iff (and_comm.trans Heap.fitsThroughout_iff.symm)

end Codec
end Tickwise
