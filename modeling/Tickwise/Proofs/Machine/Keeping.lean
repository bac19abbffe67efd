import Tickwise.Proofs.Machine.Discipline
set_option autoImplicit false

/-!
# Computations that keep a discipline

From a machine on which a discipline holds a computation comes to one on which it holds, whatever it ends
with, and its value is admitted there.
-/
namespace Tickwise

open Exec

def Interrupt.Obeys (A : Discipline) (h : Heap) : Interrupt → Prop
  | .returned v => A.Admits h v
  | _ => True

namespace Discipline

variable {A : Discipline} {α β : Type} {P : Heap → β → Prop} {Q : Heap → α → Prop} {h k : Heap}
  {m : Machine} {v : Variable} {ty : Ty} {span : Span} {storage : Storage}

/-- An outcome in the heap at the end: a value as `Q` says, or an interrupt. -/
def Ends (A : Discipline) (Q : Heap → α → Prop) (h : Heap) : Except Interrupt α → Prop
  | .ok a => Q h a
  | .error e => e.Obeys A h

/-- A computation that began with the heap `h` has kept the discipline, and ends as `Q` says. -/
structure Keeps (A : Discipline) (Q : Heap → α → Prop) (h : Heap) (r : Result α) : Prop where
  onward : A.Onward h r.2.heap
  holds : A.Holds r.2
  ends : A.Ends Q r.2.heap r.1

def Maybe (A : Discipline) (h : Heap) (o : Option Variable) : Prop := ∀ v ∈ o, A.Admits h v

/-- What an assignment may convert, where it stores: the value itself, or what the operator yields. -/
def Assigns (A : Discipline) (span : Span) (place : Place Instr) (op : Option BinaryOp) (operandTy : Ty)
    (m : Machine) (v : Variable) : Prop :=
  ∀ storage m' target, locate span place op.isNone m = (.ok storage, m') → m'.read? storage = some target →
    match op with
    | none => A.Converts target.ty v
    | some op => ∀ w, m'.heap.binary op target.toTemp v operandTy = .ok w → A.Converts target.ty w

namespace Keeps

theorem rebase {r : Result α} (le : A.Onward h k) (keeps : A.Keeps Q k r) : A.Keeps Q h r :=
  ⟨A.trans le keeps.onward, keeps.holds, keeps.ends⟩

theorem pure {a : α} (hm : A.Holds m) (ha : Q m.heap a) : A.Keeps Q m.heap ((pure a : Exec α) m) :=
  ⟨A.refl _, hm, ha⟩

theorem throw {e : Interrupt} (hm : A.Holds m) (he : e.Obeys A m.heap) :
    A.Keeps Q m.heap ((throw e : Exec α) m) :=
  ⟨A.refl _, hm, he⟩

theorem faultAt (hm : A.Holds m) (span : Span) (fault : Fault) :
    A.Keeps Q m.heap ((faultAt span fault : Exec α) m) :=
  ⟨A.refl _, hm, trivial⟩

theorem bind {c : Exec β} {f : β → Exec α} (first : A.Keeps P h (c m))
    (second : ∀ m' b, c m = (.ok b, m') → A.Onward h m'.heap → A.Holds m' → P m'.heap b →
      A.Keeps Q m'.heap (f b m')) : A.Keeps Q h ((c >>= f) m) := by
  obtain ⟨onward, holds, ends⟩ := first
  rw [bind_apply]
  generalize c m = r at onward holds ends second ⊢
  obtain ⟨_ | b, m'⟩ := r
  · exact ⟨onward, holds, ends⟩
  · exact (second m' b rfl onward holds ends).rebase onward

theorem finish {c : Exec Variable} (keeps : A.Keeps A.Admits h (c m)) : A.Keeps A.Maybe h (finish c m) :=
  keeps.bind fun _ _ _ _ holds admits => .pure holds fun _ hw => Option.some.inj hw ▸ admits

theorem goOn {c : Exec Unit} (keeps : A.Keeps (fun _ _ => True) h (c m)) : A.Keeps A.Maybe h (goOn c m) :=
  keeps.bind fun _ _ _ _ holds _ => .pure holds nofun

theorem ite {q : Prop} [Decidable q] {c d : Exec α} (hc : q → A.Keeps Q h (c m))
    (hd : ¬ q → A.Keeps Q h (d m)) : A.Keeps Q h ((if q then c else d) m) := by
  split
  · next hq => exact hc hq
  · next hq => exact hd hq

theorem check {r : Except Fault β} {f : β → Exec α} (hm : A.Holds m)
    (ok : ∀ b, r = .ok b → A.Keeps Q m.heap (f b m)) : A.Keeps Q m.heap ((check span r >>= f) m) := by
  cases r with
  | error fault => exact faultAt hm span fault
  | ok b => exact ok b rfl

theorem checkHeap {g : Heap → Except Fault β} {f : β → Exec α} (hm : A.Holds m)
    (ok : ∀ b, g m.heap = .ok b → A.Keeps Q m.heap (f b m)) :
    A.Keeps Q m.heap ((checkHeap span g >>= f) m) :=
  check (r := g m.heap) hm ok

theorem crash (hm : A.Holds m) (c : Crash) : A.Keeps Q m.heap ((crash c : Exec α) m) := throw hm trivial

theorem checkCrash {crash? : Heap → Option Crash} {g : Heap → Except Fault β} {f : β → Exec α} (hm : A.Holds m)
    (ok : ∀ b, g m.heap = .ok b → A.Keeps Q m.heap (f b m)) :
    A.Keeps Q m.heap ((checkCrash span crash? g >>= f) m) := by
  rw [bind_apply, checkCrash_apply]
  cases crash? m.heap with
  | some c => exact crash hm c
  | none =>
    have checked : A.Keeps Q m.heap ((Exec.checkHeap span g >>= f) m) := checkHeap hm ok
    rwa [bind_apply] at checked

theorem checked {crash? : Heap → Option Crash} {g : Heap → Except Fault α} (hm : A.Holds m)
    (ok : ∀ a, g m.heap = .ok a → Q m.heap a) : A.Keeps Q m.heap (Exec.checkCrash span crash? g m) := by
  rw [← bind_pure (Exec.checkCrash span crash? g)]
  exact checkCrash hm fun a ha => .pure hm (ok a ha)

theorem checkStorage {g : Heap → Except Fault (α × Heap)} (hm : A.Holds m)
    (makes : ∀ made, g m.heap = .ok made → A.Makes m.heap Q made) :
    A.Keeps Q m.heap (checkStorage span g m) := by
  rw [checkStorage_apply]
  cases hg : g m.heap with
  | error fault => exact faultAt hm span fault
  | ok made =>
    obtain ⟨onward, stored, ends⟩ := makes made hg
    exact ⟨onward, hm.withHeap onward stored, ends⟩

theorem modifyFrame {g : Frame Variable → Frame Variable} (hm : A.Holds m)
    (keeps : ∀ f, A.HoldsFrame m.heap f → A.HoldsFrame m.heap (g f)) :
    A.Keeps (fun _ _ => True) m.heap ((modify (·.modifyFrame g) : Exec Unit) m) := by
  have same := m.heap_modifyFrame g
  refine ⟨?_, hm.modifyFrame keeps, trivial⟩
  change A.Onward m.heap (m.modifyFrame g).heap
  rw [same]
  exact A.refl _

theorem setPosition (hm : A.Holds m) (state : Nat) (index : Int) :
    A.Keeps (fun _ _ => True) m.heap (setPosition state index m) :=
  .modifyFrame hm fun _ own => ⟨own.locals, own.operands⟩

theorem nextIndex (hm : A.Holds m) (state : Nat) : A.Keeps (fun _ _ => True) m.heap (nextIndex state m) :=
  .modifyFrame hm fun _ own => ⟨own.locals, own.operands⟩

theorem openScope (hm : A.Holds m) : A.Keeps (fun _ _ => True) m.heap (openScope m) :=
  .modifyFrame hm fun _ own => ⟨own.locals, own.operands⟩

theorem setOperands {vs : List Variable} (hm : A.Holds m) (hvs : ∀ v ∈ vs, A.Admits m.heap v) :
    A.Keeps (fun _ _ => True) m.heap (setOperands vs m) :=
  .modifyFrame hm fun _ own => ⟨own.locals, hvs⟩

theorem pushOperand (hm : A.Holds m) (hv : A.Admits m.heap v) :
    A.Keeps (fun _ _ => True) m.heap (pushOperand v m) :=
  .modifyFrame hm fun _ own =>
    ⟨own.locals, List.forall_mem_append.2 ⟨own.operands, List.forall_mem_singleton.2 hv⟩⟩

theorem void (hm : A.Holds m) : A.Keeps A.Admits m.heap (Exec.void m) := .pure hm (admits_temp _ _ trivial)

theorem spend (hm : A.Holds m) (span : Span) : A.Keeps (fun _ _ => True) m.heap (spend span m) := by
  rw [spend_apply]
  split
  · exact faultAt hm span _
  · split
    · exact throw hm trivial
    · exact ⟨A.refl _, ⟨hm.heap, hm.frames, hm.deeper⟩, trivial⟩

theorem declare (hm : A.Holds m) (hv : A.Admits m.heap v) : A.Keeps A.Admits m.heap (declare v m) :=
  ⟨A.refl _, hm.declare hv, admits_temp _ _ trivial⟩

/-!
## Storage
-/

theorem read (hm : A.Holds m) (reaches : A.Reaches m.heap storage) {f : Variable → Exec α}
    (ok : ∀ v, m.read? storage = some v → A.Admits m.heap v → A.Keeps Q m.heap (f v m)) :
    A.Keeps Q m.heap ((read span storage >>= f) m) := by
  rw [bind_apply, read_apply]
  cases hv : m.read? storage with
  | none =>
    cases storage with
    | var id => exact faultAt hm span _
    | cell r position => exact crash hm .panic
  | some v => exact ok v hv (reaches.read? hm hv)

theorem extendArray {container : Variable} {r : Ref} {position : Nat} {elem : Ty} (hm : A.Holds m)
    (hc : A.Admits m.heap container) (there : container.value = .array r) :
    A.Keeps (fun _ _ => True) m.heap (extendArray span r position elem m) := by
  unfold Exec.extendArray
  refine ite (fun _ => faultAt hm span _) fun short => checkHeap hm fun made allocated => ?_
  obtain ⟨onward, stored, filler⟩ := makes_allocArray hm.heap allocated
  have small : position + 1 ≤ maxElements := by omega
  obtain ⟨stored', onward'⟩ := A.extend stored (A.mono onward hc) there filler small
  have onward := A.trans onward onward'
  exact ⟨onward, hm.withHeap onward stored', trivial⟩

theorem element {container : Variable} {index : Int32} {elem : Ty} {grow : Bool} (hm : A.Holds m)
    (hc : A.Admits m.heap container) : A.Keeps A.Reaches m.heap (Exec.element span container index elem grow m) := by
  refine check hm fun r array => ?_
  have there : container.value = .array r := by
    unfold Slot.toArray at array
    split at array
    case h_1 q same =>
      cases array
      exact same
    all_goals cases array
  have reached {k : Heap} (le : A.Onward m.heap k) (position : Nat) : A.Reaches k (.cell r position) :=
    ⟨container, A.mono le hc, by rw [there]; rfl⟩
  refine ite (fun _ => faultAt hm span _) fun _ => ?_
  change A.Keeps A.Reaches m.heap ((if index.toInt.toNat < (m.heap.elements r).size
    then (return .cell r index.toInt.toNat : Exec Storage)
    else if grow then do
      Exec.extendArray span r index.toInt.toNat elem
      return .cell r index.toInt.toNat
    else Exec.faultAt span .indexOutOfRange) m)
  refine ite (fun _ => .pure hm (reached (A.refl _) _)) fun _ => ite (fun _ => ?_) fun _ => faultAt hm span _
  exact (extendArray hm hc there).bind fun m' _ _ onward holds _ => .pure holds (reached onward _)

theorem follow {ι : Type} {grow : Bool} {path : List (Access ι)} {indices : List Variable} (hm : A.Holds m)
    (reaches : A.Reaches m.heap storage) :
    A.Keeps A.Reaches m.heap (follow span grow path indices storage m) := by
  induction path generalizing m indices storage with
  | nil => exact .pure hm reaches
  | cons access path ih =>
    cases access with
    | index e elem =>
      refine read hm reaches fun container _ hc => check hm fun index _ => ?_
      exact (element hm hc).bind fun m' storage _ _ holds reaches => ih holds reaches
    | field position =>
      refine read hm reaches fun container _ hc => check hm fun there object => ih hm ?_
      unfold Slot.toObject at object
      split at object
      case h_1 c r same =>
        cases object
        exact ⟨container, hc, by rw [same]; rfl⟩
      all_goals cases object

theorem locate {ι : Type} {place : Place ι} {grow : Bool} (hm : A.Holds m) :
    A.Keeps A.Reaches m.heap (locate span place grow m) :=
  have reaches : A.Reaches m.heap (.var place.root) := trivial
  read hm reaches fun _ _ _ => follow hm reaches

theorem store (hm : A.Holds m) (reaches : A.Reaches m.heap storage) (hv : A.Admits m.heap v)
    (converts : ∀ target, m.read? storage = some target → A.Converts target.ty v) :
    A.Keeps A.Admits m.heap (store span storage v m) := by
  refine read hm reaches fun target here _ => checkCrash hm fun stored assigned => ?_
  have admits := admits_assign hv (converts target here) assigned
  obtain ⟨onward, holds⟩ := reaches.write hm admits
  exact ⟨onward, holds, A.mono onward (admits_toTemp admits)⟩

theorem readInit (hm : A.Holds m) (reaches : A.Reaches m.heap storage) :
    A.Keeps A.Admits m.heap (readInit span storage m) :=
  read hm reaches fun _ _ hv => ite (fun _ => .pure hm (admits_toTemp hv)) fun _ => faultAt hm span _

theorem load {place : Place Instr} (hm : A.Holds m) : A.Keeps A.Admits m.heap (load span place m) :=
  (locate hm).bind fun _ _ _ _ holds reaches => readInit holds reaches

theorem assign {place : Place Instr} {op : Option BinaryOp} {operandTy : Ty} (hm : A.Holds m)
    (hv : A.Admits m.heap v) (assigns : A.Assigns span place op operandTy m v) :
    A.Keeps A.Admits m.heap (assign span place op operandTy v m) := by
  refine (locate hm).bind fun m' storage located onward holds reaches => ?_
  have assigns := fun target => assigns storage m' target located
  cases op with
  | none => exact store holds reaches (A.mono onward hv) assigns
  | some op =>
    refine read holds reaches fun old here _ => checkCrash holds fun new computed => ?_
    refine store holds reaches (admits_binary computed) fun target again => ?_
    cases here.symm.trans again
    exact assigns old here new computed

theorem step {place : Place Instr} {up before : Bool} (hm : A.Holds m) :
    A.Keeps A.Admits m.heap (step span place up before m) := by
  refine (locate hm).bind fun m' storage _ _ holds reaches => ?_
  refine read holds reaches fun old _ hold => check holds fun new stepped => ?_
  have hnew : A.Admits m'.heap new := admits_step stepped
  obtain ⟨onward, holds⟩ := reaches.write holds hnew
  refine ⟨onward, holds, A.mono onward ?_⟩
  split
  · exact admits_toTemp hnew
  · exact admits_toTemp hold

theorem undefinedValue (hm : A.Holds m) (span : Span) (ty : Ty) :
    A.Keeps A.Admits m.heap (undefinedValue span ty m) := by
  unfold Exec.undefinedValue
  split
  · refine check (r := m.own.operands.mapM Slot.toInt) hm fun sizes _ => ?_
    exact checkStorage hm fun made allocated => makes_allocArray hm.heap allocated
  · exact .pure hm (admits_temp _ _ trivial)
  · exact .pure hm (admits_fresh _ _)

theorem binary {op : BinaryOp} {operandTy : Ty} {right : Variable} (hm : A.Holds m) :
    A.Keeps A.Admits m.heap (binary span op operandTy right m) := by
  have read : A.Keeps (fun _ _ => True) m.heap (Exec.operands m) := ⟨A.refl _, hm, trivial⟩
  refine read.bind fun m' vs same _ _ _ => ?_
  cases same
  cases m.own.operands.head? with
  | some left => exact checked hm fun w computed => admits_binary computed
  | none => exact faultAt hm span _

theorem list (hm : A.Holds m) (roomy : A.Roomy m.own.operands.length) :
    A.Keeps A.Admits m.heap (list span ty m) := by
  change A.Keeps A.Admits m.heap (Exec.checkStorage span
    (fun h => .ok (h.newArray (ty.element?.getD .void) m.own.operands)) m)
  refine checkStorage hm fun made same => ?_
  cases same
  exact makes_newArray _ hm.heap hm.own.operands roomy

theorem convert (hm : A.Holds m) (hv : A.Admits m.heap v) (converts : A.Converts ty v) :
    A.Keeps A.Admits m.heap (convert span v ty m) :=
  checked hm fun _ converted => admits_convert hv converts converted

/-- An instruction that has no frame yields an admitted value if its literal is admitted. -/
theorem leaf {i : Instr} (hm : A.Holds m) (literal : ∀ v, i.form = .literal v → A.Admits m.heap v) :
    A.Keeps A.Admits m.heap (leaf i m) := by
  unfold Exec.leaf
  cases form : i.form with
  | literal v => exact .pure hm (literal v form)
  | new cls =>
    refine checkStorage hm fun made same => ?_
    cases same
    exact makes_newObject cls hm.heap
  | breakTo label => exact throw hm trivial
  | continueTo label => exact throw hm trivial
  | ret value =>
    cases value with
    | none => exact throw hm (admits_temp _ _ trivial)
    | some e => exact void hm
  | load place =>
    have reaches : A.Reaches m.heap (.var place.root) := trivial
    exact readInit hm reaches
  | _ => exact void hm

end Keeps
end Discipline
end Tickwise
