import Tickwise.Proofs.Typing.Legible
import Tickwise.Proofs.Typing.Machine
import Tickwise.Proofs.Typing.Natives
set_option autoImplicit false

/-!
# Sound computations

A computation on a typed machine leads to a typed one, whatever it ends with. What is read from a place
is of the type of the place, and no access is out of bounds.
-/
namespace Tickwise

open Exec

/-- What an interrupt of a function with result type `ret` carries is right. `left` is what holds of a
machine that is suspended. Nothing crashes but a native. -/
def Interrupt.Sound (D : Declarations) (S : MarkedShapes) (ret : Ty) (left : Prop) : Interrupt → Prop
  | .returned v => S.Has ret v.value
  | .suspended => left
  | .crashed _ => D.Crashes
  | _ => True

/-- A computation ends with a typed machine, for shapes that extend those from which it began. -/
def Sound {α : Type} (D : Declarations) (ret : Ty) (Q : MarkedShapes → Machine → α → Prop)
    (L : MarkedShapes → Machine → Prop) (S : MarkedShapes) (r : Except Interrupt α × Machine) : Prop :=
  ∃ S', S.Le S' ∧ r.2.Typed D S' ∧ match r.1 with
    | .ok a => Q S' r.2 a
    | .error e => e.Sound D S' ret (L S' r.2)

namespace Sound

variable {α β : Type} {D : Declarations} {ret ty : Ty} {P : MarkedShapes → Machine → β → Prop}
  {Q Q' : MarkedShapes → Machine → α → Prop} {L L' : MarkedShapes → Machine → Prop} {S S' : MarkedShapes} {m : Machine}
  {v : Variable} {span : Span} {storage : Storage} {place : Place Instr}

theorem rebase {r : Except Interrupt α × Machine} (hS : S.Le S') (h : Sound D ret Q L S' r) :
    Sound D ret Q L S r := by
  obtain ⟨S'', le, typed, ends⟩ := h
  exact ⟨S'', hS.trans le, typed, ends⟩

theorem pure {a : α} (hm : m.Typed D S) (h : Q S m a) :
    Sound D ret Q L S ((pure a : Exec α) m) :=
  ⟨S, .refl S, hm, h⟩

theorem faultAt (hm : m.Typed D S) (span : Span) (fault : Fault) :
    Sound D ret Q L S ((faultAt span fault : Exec α) m) :=
  ⟨S, .refl S, hm, trivial⟩

theorem throw {e : Interrupt} (hm : m.Typed D S) (h : e.Sound D S ret (L S m)) :
    Sound D ret Q L S ((throw e : Exec α) m) :=
  ⟨S, .refl S, hm, h⟩

theorem bind {c : Exec β} {f : β → Exec α} (first : Sound D ret P L S (c m))
    (second : ∀ S' m' b, S.Le S' → m'.Typed D S' → P S' m' b → Sound D ret Q L S' (f b m')) :
    Sound D ret Q L S ((c >>= f) m) := by
  obtain ⟨S', le, typed, ends⟩ := first
  rw [bind_apply]
  generalize c m = r at typed ends ⊢
  obtain ⟨_ | b, m'⟩ := r
  · exact ⟨S', le, typed, ends⟩
  · exact (second S' m' b le typed ends).rebase le

theorem finish {c : Exec Variable} {Q : MarkedShapes → Machine → Variable → Prop}
    {Q' : MarkedShapes → Machine → Option Variable → Prop} (h : Sound D ret Q L S (c m))
    (hQ : ∀ S' m' v, Q S' m' v → Q' S' m' (some v)) : Sound D ret Q' L S (finish c m) :=
  h.bind fun S' m' v _ typed hv => .pure typed (hQ S' m' v hv)

theorem check {r : Except Fault β} {f : β → Exec α} (hm : m.Typed D S)
    (ok : ∀ b, r = .ok b → Sound D ret Q L S (f b m)) :
    Sound D ret Q L S ((check span r >>= f) m) := by
  cases r with
  | error fault => exact faultAt hm span fault
  | ok b => exact ok b rfl

theorem checkHeap {g : Heap → Except Fault β} {f : β → Exec α} (hm : m.Typed D S)
    (ok : ∀ b, g m.heap = .ok b → Sound D ret Q L S (f b m)) :
    Sound D ret Q L S ((checkHeap span g >>= f) m) :=
  check (r := g m.heap) hm ok

theorem checkCrash {crash? : Heap → Option Crash} {g : Heap → Except Fault β} {f : β → Exec α} (hm : m.Typed D S)
    (none : crash? m.heap = none) (ok : ∀ b, g m.heap = .ok b → Sound D ret Q L S (f b m)) :
    Sound D ret Q L S ((checkCrash span crash? g >>= f) m) := by
  rw [bind_apply, checkCrash_apply, none]
  have sound : Sound D ret Q L S ((Exec.checkHeap span g >>= f) m) := checkHeap hm ok
  rwa [bind_apply] at sound

theorem convert {f : Variable → Exec α} (hm : m.Typed D S) {src : Ty} (has : S.Has src v.value) (offers : S.Offers ty v)
    (ok : ∀ w, S.HasTemp ty w → Sound D ret Q L S (f w m)) : Sound D ret Q L S ((convert span v ty >>= f) m) :=
  checkCrash hm (hm.heap.crash?_eq_none (.inr has)) fun w converted =>
    ok w (MarkedShapes.hasTemp_of_convert offers converted)

theorem ne_crashed {r : Except Interrupt α × Machine} (h : Sound D.alone ret Q L S r) (c : Crash) :
    r.1 ≠ .error (.crashed c) := by
  obtain ⟨_, _, _, ends⟩ := h
  intro crashed
  rw [crashed] at ends
  exact D.not_crashes_alone ends

theorem checkStorage {g : Heap → Except Fault (Variable × Heap)} {f : Variable → Exec α}
    (hm : m.Typed D S) (makes : ∀ r, g m.heap = .ok r → S.Makes ty r)
    (ok : ∀ S' v heap, S.Le S' → Machine.Typed D S' { m with heap := heap } → S'.HasTemp ty v →
      Sound D ret Q L S' (f v { m with heap := heap })) :
    Sound D ret Q L S ((checkStorage span g >>= f) m) := by
  have terms : Exec.checkStorage span g = (Exec.checkHeap span g >>= fun r => do
    modify ({ · with heap := r.2 })
    return r.1) := rfl
  rw [terms, bind_assoc]
  apply checkHeap hm
  intro r hr
  obtain ⟨S', le, described, made⟩ := makes r hr
  exact (ok S' r.1 r.2 le (hm.withHeap le described) made).rebase le

theorem read {f : Variable → Exec α} (hm : m.Typed D S) (owned : S.Owns D m.heap ty storage)
    (ok : ∀ v, S.HasSlot ty v → (∀ id, storage = .var id → v.id = id) →
      Sound D ret Q L S (f v m)) : Sound D ret Q L S ((read span storage >>= f) m) := by
  rw [bind_apply, read_apply]
  cases hv : m.read? storage with
  | none =>
    cases storage with
    | var id => exact faultAt hm span _
    | cell ref position => cases hv.symm.trans (Array.getElem?_eq_getElem owned.1)
  | some v =>
    obtain ⟨slot, same⟩ := owned.read? hm hv
    exact ok v slot same

theorem extendArray {elem : Ty} {ref : Ref} {position : Nat} (hm : m.Typed D S)
    (at_ : S.at? ref = some (.array elem)) :
    Sound D ret (fun S' m' _ => S'.Owns D m'.heap elem (.cell ref position)) L S
      (extendArray span ref position elem m) := by
  unfold Exec.extendArray
  split
  · exact faultAt hm span _
  · apply checkHeap hm
    rintro ⟨filler, heap⟩ made
    obtain ⟨S', le, described, temp⟩ := hm.heap.makes_allocArray made
    have at_ := le.shapes at_
    have described' := described.extend at_ temp.slot (position + 1)
    refine ⟨S', le, hm.withHeap le described', ?_, _, at_, rfl⟩
    change position < ((heap.extend ref (position + 1) filler).elements ref).size
    rw [Heap.elements_extend (described.bounded at_), if_pos rfl]
    simp
    omega

theorem element {elem : Ty} {container : Variable} {index : Int32} {grow : Bool} (hm : m.Typed D S)
    (hc : S.HasSlot (.array elem) container) :
    Sound D ret (fun S' m' storage => S'.Owns D m'.heap elem storage) L S
      (element span container index elem grow m) := by
  apply check hm
  intro ref href
  have at_ : S.at? ref = some (.array elem) := by
    rcases hc.2 with value | value | ⟨r, value, at_⟩
    · simp [Slot.toArray, value] at href
    · simp [Slot.toArray, value] at href
    · simp [Slot.toArray, value] at href
      exact href ▸ at_
  split
  · exact faultAt hm span _
  · change Sound D ret _ L S ((if index.toInt.toNat < (m.heap.elements ref).size
      then (return .cell ref index.toInt.toNat : Exec Storage)
      else if grow then do
        Exec.extendArray span ref index.toInt.toNat elem
        return .cell ref index.toInt.toNat
      else Exec.faultAt span .indexOutOfRange) m)
    split
    case isTrue inside => exact pure hm ⟨inside, _, at_, rfl⟩
    case isFalse =>
      split
      · apply bind (extendArray hm at_)
        intro S' m' _ _ typed owned
        exact pure typed owned
      · exact faultAt hm span _

theorem follow {grow : Bool} {path : List (Access Instr)} {indices : List Variable} {src dst : Ty}
    (hm : m.Typed D S) (owned : S.Owns D m.heap src storage) (leads : D.Leads src path dst) :
    Sound D ret (fun S' m' storage => S'.Owns D m'.heap dst storage) L S
      (follow span grow path indices storage m) := by
  induction path generalizing S m indices storage src with
  | nil =>
    cases leads
    exact pure hm owned
  | cons access path ih =>
    cases access with
    | index e elem =>
      obtain ⟨rfl, leads⟩ := leads
      apply read hm owned
      intro container hc _
      apply check hm
      intro index _
      apply bind (element hm hc)
      intro S' m' storage _ typed owned
      exact ih typed owned leads
    | field position =>
      obtain ⟨c, cls, f, rfl, known, field, leads⟩ := leads
      apply read hm owned
      intro container hc _
      apply check hm
      rintro ⟨_, ref⟩ href
      refine ih hm ?_ leads
      rcases hc.2 with value | value | ⟨r, cls', value, known', at_⟩
      · simp [Slot.toObject, value] at href
      · simp [Slot.toObject, value] at href
      · simp [Slot.toObject, value] at href
        obtain ⟨-, rfl⟩ := href
        rw [hm.classes, known] at known'
        cases known'
        refine ⟨?_, _, at_, by simp [Shape.slot?, field]⟩
        rw [(hm.heap.fills at_).2 cls rfl]
        exact (List.getElem?_eq_some_iff.1 field).1

theorem locate {grow : Bool} (hm : m.Typed D S) (names : D.Names place) :
    Sound D ret (fun S' m' storage => S'.Owns D m'.heap place.ty storage) L S
      (locate span place grow m) := by
  obtain ⟨root, declared, leads⟩ := names
  have owned : S.Owns D m.heap root (.var place.root) := declared
  apply read hm owned
  intro _ _ _
  exact follow hm owned leads

theorem store (hm : m.Typed D S) (owned : S.Owns D m.heap ty storage) (hv : S.Stores ty v) :
    Sound D ret (fun S' _ w => S'.HasTemp ty w) L S (store span storage v m) := by
  apply read hm owned
  intro target slot same
  apply checkCrash hm (MarkedShapes.storeCrash?_eq_none slot.1 hv storage m.heap)
  intro stored assigned
  obtain ⟨temp, id⟩ := MarkedShapes.hasTemp_of_assign slot.1 hv.offers assigned
  have typed := owned.write hm temp.slot fun var hvar => id.trans (same var hvar)
  exact ⟨S, .refl S, typed, temp⟩

theorem readInit (hm : m.Typed D S) (owned : S.Owns D m.heap ty storage) :
    Sound D ret (fun S' _ w => S'.HasTemp ty w) L S (readInit span storage m) := by
  apply read hm owned
  intro v slot _
  split
  case isTrue init => exact pure hm (slot.temp init)
  case isFalse => exact faultAt hm span _

theorem load (hm : m.Typed D S) (names : D.Names place) :
    Sound D ret (fun S' _ w => S'.HasTemp place.ty w) L S (load span place m) := by
  apply bind (locate hm names)
  intro S' m' storage _ typed owned
  exact readInit typed owned

theorem operate {op : BinaryOp} {operandTy src : Ty} {left : Variable} {f : Variable → Exec α} (hm : m.Typed D S)
    (hl : left.value = .unassigned ∨ S.Has src left.value) (hv : S.Has ty v.value)
    (ok : ∀ w, m.heap.binary op left v operandTy = .ok w → Sound D ret Q L S (f w m)) :
    Sound D ret Q L S ((operate span op left v operandTy >>= f) m) := by
  refine checkCrash hm ?_ ok
  rw [hm.heap.crash?_eq_none hl, hm.heap.crash?_eq_none (.inr hv)]
  exact ite_self none

theorem assign {op : Option BinaryOp} {operandTy src : Ty} (hm : m.Typed D S) (names : D.Names place)
    (hv : S.Has src v.value) (fits : op = none → S.Has place.ty v.value)
    (scalar : op ≠ none → place.ty.isReference = false) :
    Sound D ret (fun S' _ w => S'.HasTemp place.ty w) L S (assign span place op operandTy v m) := by
  apply bind (locate hm names)
  intro S' m' storage le typed owned
  cases op with
  | none => exact store typed owned (.inl ((fits rfl).mono le.toLe))
  | some op =>
    apply read typed owned
    intro old slot _
    have left : old.toTemp.value = .unassigned ∨ S'.Has place.ty old.toTemp.value := slot.2
    refine operate typed left (hv.mono le.toLe) fun new computed => ?_
    exact store typed owned (.inr ⟨scalar nofun, Heap.scalar_of_binary computed⟩)

theorem step {up before : Bool} (hm : m.Typed D S) (names : D.Names place)
    (numeric : place.ty.isNumeric = true) :
    Sound D ret (fun S' _ w => S'.HasTemp place.ty w) L S (step span place up before m) := by
  apply bind (locate hm names)
  intro S' m' storage le typed owned
  apply read typed owned
  intro old slot same
  apply check typed
  intro new stepped
  obtain ⟨hold, hnew, id⟩ := slot.step numeric stepped
  have typed' := owned.write typed hnew.slot fun var hvar => id.trans (same var hvar)
  refine ⟨S', .refl S', typed', ?_⟩
  change S'.HasTemp place.ty (if before then new.toTemp else old.toTemp)
  split
  · exact hnew
  · exact hold

theorem undefinedValue (hm : m.Typed D S) :
    Sound D ret (fun S' _ v => S'.HasSlot ty v) L S (undefinedValue span ty m) := by
  unfold Exec.undefinedValue
  split
  case h_1 elem =>
    apply check (r := m.own.operands.mapM Slot.toInt) hm
    intro sizes _
    rw [← bind_pure (Exec.checkStorage span _)]
    apply checkStorage hm fun r made => hm.heap.makes_allocArray made
    intro S' v heap _ typed temp
    exact pure typed temp.slot
  case h_2 c => exact pure hm (S.hasTemp_ofNull rfl).slot
  case h_3 => exact pure hm (MarkedShapes.hasSlot_fresh S ty)

theorem declare (hm : m.Typed D S) (hv : S.HasLocal D v) :
    Sound D ret (fun S' _ w => S'.HasTemp .void w) L S (declare v m) :=
  ⟨S, .refl S, hm.declare hv, MarkedShapes.hasTemp_ofVoid S⟩

theorem leaf {i : Instr} (hi : i.Typed D ret) (hl : i.isLeaf = true) (hm : m.Typed D S) :
    Sound D ret (fun S' _ v => S'.HasTemp i.ty v) L S (leaf i m) := by
  obtain ⟨id, span, form⟩ := i
  have checks := hi.checks
  unfold Exec.leaf
  cases form with
  | empty => exact pure hm (MarkedShapes.hasTemp_ofVoid S)
  | breakTo label => exact throw hm trivial
  | continueTo label => exact throw hm trivial
  | literal v => exact pure hm ⟨S.marking.refl _, checks S.toShapes⟩
  | ret value =>
    cases value with
    | none =>
      have isVoid : ret = .void := checks
      refine throw hm ?_
      subst isVoid
      rfl
    | some e => cases hl
  | new cls =>
    have known : S.class? cls.name = some cls := (congrFun hm.classes cls.name).trans checks
    have makes : ∀ r, Except.ok (m.heap.newObject cls) = (.ok r : Except Fault _) →
        S.Makes (.named cls.name) r := by
      intro r hr
      cases hr
      exact hm.heap.makes_newObject known
    dsimp only [Instr.form]
    rw [← bind_pure (Exec.checkStorage _ _)]
    apply checkStorage hm makes
    intro S' v heap _ typed temp
    exact pure typed temp
  | load place =>
    obtain ⟨root, declared, leads⟩ := checks
    have path : place.path = [] := List.isEmpty_iff.1 hl
    rw [path] at leads
    cases leads
    have owned : S.Owns D m.heap place.ty (.var place.root) := declared
    exact readInit hm owned
  | _ => cases hl

end Sound
end Tickwise
