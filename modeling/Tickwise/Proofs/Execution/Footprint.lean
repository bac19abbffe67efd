import Tickwise.Proofs.Execution.Keeping
import Tickwise.Proofs.Machine.KeepingParts
import Tickwise.Proofs.Native.Library
import Tickwise.Proofs.Native.Plain
set_option autoImplicit false

/-!
# Footprints

Variables lead to the storage that can be reached from them. What an execution does is confined to what its
variables lead to and to storage that it makes itself: it changes nothing else, and comes to lead to nothing else.
-/
namespace Tickwise

open Exec

namespace Heap

/-- Can storage be reached from one of these variables? -/
inductive Leads (h : Heap) (vs : List Variable) : Ref → Prop
  | direct {v : Variable} {r : Ref} (hv : v ∈ vs) (refers : v.value.storage? = some r) : Leads h vs r
  | through {w : Variable} {r q : Ref} (leads : Leads h vs r) (hw : w ∈ h.elements r)
      (refers : w.value.storage? = some q) : Leads h vs q

variable {h k l : Heap} {vs ws : List Variable} {v w : Variable} {r q : Ref} {n : Nat}

theorem Leads.within {P : Ref → Prop} (own : ∀ v ∈ vs, ∀ r, v.value.storage? = some r → P r)
    (closed : ∀ r, P r → ∀ w ∈ h.elements r, ∀ q, w.value.storage? = some q → P q) (leads : h.Leads vs r) : P r := by
  induction leads with
  | direct hv refers => exact own _ hv _ refers
  | through _ hw refers ih => exact closed _ ih _ hw _ refers

theorem leads_congr (same : ∀ r, h.Leads vs r → k.elements r = h.elements r) : k.Leads vs r ↔ h.Leads vs r := by
  constructor
  · refine Leads.within (fun v hv r refers => .direct hv refers) fun r leads w hw q refers => ?_
    rw [same r leads] at hw
    exact .through leads hw refers
  · intro leads
    induction leads with
    | direct hv refers => exact .direct hv refers
    | through leads hw refers ih =>
      rw [← same _ leads] at hw
      exact .through ih hw refers

def Owns (h : Heap) (vs : List Variable) (r : Ref) : Prop := h.Leads vs r ∨ h.size ≤ r

def Within (h : Heap) (vs : List Variable) (v : Variable) : Prop := ∀ r, v.value.storage? = some r → h.Owns vs r

theorem within_of_none (none : v.value.storage? = none) : h.Within vs v := by
  intro r refers
  rw [none] at refers
  cases refers

theorem Within.congr (same : w.value = v.value) (hv : h.Within vs v) : h.Within vs w :=
  fun r refers => hv r (same ▸ refers)

/-- The second heap is the first one after changes that are confined to the footprint of variables. -/
structure Confines (h : Heap) (vs : List Variable) (k : Heap) : Prop where
  size_le : h.size ≤ k.size
  kept : ∀ r, ¬ h.Owns vs r → k.elements r = h.elements r
  inside : ∀ r, h.Owns vs r → ∀ w ∈ k.elements r, h.Within vs w

namespace Confines

theorem refl (h : Heap) (vs : List Variable) : h.Confines vs h where
  size_le := Nat.le_refl _
  kept _ _ := rfl
  inside r owns w hw q refers := by
    rcases owns with leads | beyond
    · exact .inl (.through leads hw refers)
    · rw [elements_eq, show h.cells[r]? = none from Array.getElem?_eq_none beyond] at hw
      exact absurd hw (Array.not_mem_empty w)

variable (confines : h.Confines vs k)

include confines

theorem owns (within : ∀ v ∈ ws, h.Within vs v) (owns : k.Owns ws r) : h.Owns vs r := by
  rcases owns with leads | beyond
  · exact leads.within within confines.inside
  · exact .inr (Nat.le_trans confines.size_le beyond)

theorem trans (within : ∀ v ∈ ws, h.Within vs v) (later : k.Confines ws l) : h.Confines vs l where
  size_le := Nat.le_trans confines.size_le later.size_le
  kept r apart := by
    rw [later.kept r fun owns => apart (confines.owns within owns), confines.kept r apart]
  inside r owns w hw := by
    by_cases touched : k.Owns ws r
    · exact fun q refers => confines.owns within (later.inside r touched w hw q refers)
    · rw [later.kept r touched] at hw
      exact confines.inside r owns w hw

theorem write (owns : h.Owns vs r) (hw : h.Within vs w) (i : Nat) : h.Confines vs (k.write r i w) where
  size_le := by
    rw [size_write]
    exact confines.size_le
  kept q apart := by
    have other : q ≠ r := fun same => apart (same ▸ owns)
    rw [elements_write, if_neg other, confines.kept q apart]
  inside q owns u hu := by
    rcases mem_elements_write hu with rfl | hu
    · exact hw
    · exact confines.inside q owns u hu

theorem extend (owns : h.Owns vs r) (hw : h.Within vs w) : h.Confines vs (k.extend r n w) where
  size_le := by
    rw [size_extend]
    exact confines.size_le
  kept q apart := by
    have other : q ≠ r := fun same => apart (same ▸ owns)
    rw [← confines.kept q apart]
    simp only [elements_eq, Heap.extend, Array.getElem?_modify, if_neg other.symm]
  inside q owns u hu := by
    rcases mem_elements_extend hu with rfl | hu
    · exact hw
    · exact confines.inside q owns u hu

theorem alloc {slots : Array Variable} (all : ∀ w ∈ slots, h.Within vs w) : h.Confines vs (k.alloc slots).2 where
  size_le := by
    rw [size_alloc]
    exact Nat.le_succ_of_le confines.size_le
  kept q apart := by
    have other : q ≠ k.size := fun same => apart (.inr (same ▸ confines.size_le))
    rw [elements_alloc, if_neg other, confines.kept q apart]
  inside q owns u hu := by
    rcases mem_elements_alloc hu with hu | hu
    · exact all u hu
    · exact confines.inside q owns u hu

end Confines
end Heap

def Discipline.footprint (h : Heap) (vs : List Variable) : Discipline where
  Admits _ := h.Within vs
  Stored := h.Confines vs
  Onward _ _ := True
  Converts _ _ := True
  Roomy _ := True
  refl _ := trivial
  trans _ _ := trivial
  mono _ hv := hv
  same value _ hv := hv.congr value
  plain {_ v} _ plain := Heap.within_of_none (by
    generalize v.value = value at plain
    cases value with
    | array _ | object _ _ => exact plain.elim
    | _ => rfl)
  text _ value _ := Heap.within_of_none (by rw [value]; rfl)
  unlabelled value _ hv := hv.congr value
  number _ _ value _ := Heap.within_of_none (by rw [value]; rfl)
  converted _ _ _ value _ := Heap.within_of_none (by rw [value]; rfl)
  element stored hv refers := stored.inside _ (hv _ refers)
  write stored hv refers hw i := ⟨stored.write (hv _ refers) hw i, trivial⟩
  extend stored hv value hw _ := ⟨stored.extend (hv _ (by rw [value]; rfl)) hw, trivial⟩
  alloc {k slots v} stored all value _ := by
    refine ⟨stored.alloc all, trivial, fun r refers => .inr ?_⟩
    have here : v.value.storage? = some k.size := by
      rcases value with ⟨value, _⟩ | ⟨c, value⟩
      all_goals
        rw [value]
        rfl
    cases here.symm.trans refers
    exact stored.size_le
  roomy _ := trivial

theorem Discipline.footprint_permits (h : Heap) (vs : List Variable) : (footprint h vs).Permits :=
  ⟨fun _ _ => trivial, fun _ => trivial⟩

/-- A native that keeps to the storage of the call: of what there is it changes only what the arguments lead to,
and what it answers and leaves there leads only to that and to new storage. -/
structure NativeFn.Confined (f : NativeFn) : Prop where
  storage : ∀ c : NativeCall, c.heap.Confines c.args (f.handler c).heap
  result : ∀ c v, (f.handler c).outcome = .done v → c.heap.Within c.args v

theorem NativeFn.Plain.confined {f : NativeFn} (plain : f.Plain) : f.Confined where
  storage c := by
    rw [plain.heap]
    exact .refl _ _
  result c v done := Heap.within_of_none (plain.storage c v done)

theorem NativeFn.Confined.serves {f : NativeFn} (confined : f.Confined) {h : Heap} {vs : List Variable} {m : Machine}
    (hm : (Discipline.footprint h vs).Holds m) (phase : CallPhase) (ret : Ty) :
    (Discipline.footprint h vs).Serves m.heap ret (m.reply f phase) where
  onward := trivial
  stored :=
    hm.heap.trans hm.own.operands
      (confined.storage ⟨m.own.operands, phase, Int32.ofInt m.own.index, m.heap, m.journal⟩)
  admits v done r refers := hm.heap.owns hm.own.operands (confined.result _ v done r refers)
  converts _ _ := trivial

namespace Program

variable {p : Program}

theorem tick_confined (code : ∀ f ∈ p.functions, f.body.Closed) (natives : ∀ f ∈ p.env.natives.natives, f.Confined)
    (x : Execution Variable) (s : Session) :
    s.heap.Confines x.slots (p.tick x s).session.heap ∧
      ∀ v ∈ (p.tick x s).execution.slots, s.heap.Within x.slots v := by
  have guides := Discipline.Guides.of_permits (P := Instr.Closed) (Discipline.footprint_permits s.heap x.slots)
    (fun i hi _ v form => Heap.within_of_none (hi.literal form)) (fun _ _ hi hc => hi.part hc) code
    fun f hf m phase ret hm => (natives f hf).serves hm phase ret
  have held : (Discipline.footprint s.heap x.slots).HoldsIn x s.heap :=
    Discipline.holdsIn_of_slots (.refl _ _) fun v hv r refers => .inl (.direct hv refers)
  have prepares (f : Function) (y : Execution Variable) (prepared : p.prepare x s = .inr (f, y)) : f.body.Closed :=
    code f (List.mem_of_getElem? (prepare_right prepared).1)
  obtain ⟨_, after, _⟩ := guides.tick held prepares fun _ _ _ _ _ _ => trivial
  exact ⟨after.heap, after.slots⟩

end Program
end Tickwise
