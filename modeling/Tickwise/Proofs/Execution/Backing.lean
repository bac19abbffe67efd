import Tickwise.Proofs.Execution.Keeping
import Tickwise.Proofs.Execution.Persistence
import Tickwise.Proofs.Machine.KeepingParts
import Tickwise.Proofs.Native.Plain
set_option autoImplicit false

/-!
# References to storage that there is

Whatever a host comes to, no variable refers to storage that is still to be made: so storage that is made is
shared with nothing.
-/
namespace Tickwise

open Exec

namespace Heap

/-- There is storage for what the variable refers to. -/
def Backs (h : Heap) (v : Variable) : Prop := ∀ r : Nat, v.value.storage? = some r → r < h.size

variable {h k : Heap} {v w : Variable} {r : Ref} {n : Nat}

theorem backs_of_none (none : v.value.storage? = none) : h.Backs v := by
  intro r refers
  rw [none] at refers
  cases refers

theorem Backs.congr (same : w.value = v.value) (hv : h.Backs v) : h.Backs w := fun r refers => hv r (same ▸ refers)

theorem Backs.mono (le : h.size ≤ k.size) (hv : h.Backs v) : k.Backs v :=
  fun r refers => Nat.lt_of_lt_of_le (hv r refers) le

namespace Closed

theorem backs (closed : h.Closed) (hw : w ∈ h.elements r) : h.Backs w := closed r w (Array.mem_def.1 hw)

theorem of_backs (backs : ∀ r, ∀ w ∈ h.elements r, h.Backs w) : h.Closed := fun r w hw => backs r w (Array.mem_def.2 hw)

theorem empty : Heap.empty.Closed := of_backs fun _ _ hw => absurd hw (Array.not_mem_empty _)

variable (closed : h.Closed)

include closed

theorem write (hw : h.Backs w) (i : Nat) : (h.write r i w).Closed := by
  refine of_backs fun q u hu => Backs.mono (h := h) (Nat.le_of_eq (size_write ..).symm) ?_
  rcases mem_elements_write hu with rfl | hu
  · exact hw
  · exact closed.backs hu

theorem extend (hw : h.Backs w) : (h.extend r n w).Closed := by
  refine of_backs fun q u hu => Backs.mono (h := h) (Nat.le_of_eq (size_extend ..).symm) ?_
  rcases mem_elements_extend hu with rfl | hu
  · exact hw
  · exact closed.backs hu

theorem alloc {slots : Array Variable} (all : ∀ w ∈ slots, h.Backs w) : (h.alloc slots).2.Closed := by
  refine of_backs fun q u hu => Backs.mono (h := h) (Grows.alloc h slots).size_le ?_
  rcases mem_elements_alloc hu with hu | hu
  · exact all u hu
  · exact closed.backs hu

end Closed
end Heap

def Discipline.backing : Discipline where
  Admits := Heap.Backs
  Stored := Heap.Closed
  Onward h k := h.size ≤ k.size
  Converts _ _ := True
  Roomy _ := True
  refl _ := Nat.le_refl _
  trans := Nat.le_trans
  mono := Heap.Backs.mono
  same value _ hv := hv.congr value
  plain {_ v} _ plain := Heap.backs_of_none (by
    generalize v.value = value at plain
    cases value with
    | array _ | object _ _ => exact plain.elim
    | _ => rfl)
  text _ value _ := Heap.backs_of_none (by rw [value]; rfl)
  unlabelled value _ hv := hv.congr value
  number _ _ value _ := Heap.backs_of_none (by rw [value]; rfl)
  converted _ _ _ value _ := Heap.backs_of_none (by rw [value]; rfl)
  element stored _ _ _ hw := stored.backs hw
  write stored _ _ hw i := ⟨stored.write hw i, Nat.le_of_eq (Heap.size_write ..).symm⟩
  extend stored _ _ hw _ := ⟨stored.extend hw, Nat.le_of_eq (Heap.size_extend ..).symm⟩
  alloc {h slots v} stored all value _ := by
    refine ⟨stored.alloc all, (Heap.Grows.alloc h slots).size_le, fun r refers => ?_⟩
    have here : v.value.storage? = some h.size := by
      rcases value with ⟨value, _⟩ | ⟨c, value⟩
      all_goals
        rw [value]
        rfl
    cases here.symm.trans refers
    rw [Heap.size_alloc]
    exact Nat.lt_succ_self _
  roomy _ := trivial

theorem Discipline.backing_permits : backing.Permits := ⟨fun _ _ => trivial, fun _ => trivial⟩

/-- A native that loses no storage, and answers and leaves nothing that refers to storage that there is not. -/
def NativeFn.Backed (f : NativeFn) : Prop :=
  ∀ c : NativeCall, c.heap.Closed → (∀ v ∈ c.args, c.heap.Backs v) →
    c.heap.size ≤ (f.handler c).heap.size ∧ (f.handler c).heap.Closed ∧
      ∀ v, (f.handler c).outcome = .done v → (f.handler c).heap.Backs v

theorem NativeFn.Plain.backed {f : NativeFn} (plain : f.Plain) : f.Backed := fun c closed _ =>
  ⟨Nat.le_of_eq (congrArg Heap.size (plain.heap c).symm), (plain.heap c).symm ▸ closed,
    fun v done => Heap.backs_of_none (plain.storage c v done)⟩

theorem NativeFn.Backed.serves {f : NativeFn} (backed : f.Backed) {m : Machine} (hm : Discipline.backing.Holds m)
    (phase : CallPhase) (ret : Ty) : Discipline.backing.Serves m.heap ret (m.reply f phase) :=
  have ⟨onward, stored, admits⟩ :=
    backed ⟨m.own.operands, phase, Int32.ofInt m.own.index, m.heap, m.journal⟩ hm.heap hm.own.operands
  ⟨onward, stored, admits, fun _ _ => trivial⟩

/-!
## Saved state
-/

namespace Heap

variable {h : Heap}

theorem backs_mapThread {depth : Nat} {ts : List Tree} (nested : ∀ t ∈ ts, t.Nested depth)
    (each : ∀ t ∈ ts, ∀ h : Heap, h.Closed → (plant t h).2.Closed ∧ (plant t h).2.Backs (plant t h).1)
    (closed : h.Closed) :
    (mapThread plant ts h).2.Closed ∧ ∀ v ∈ (mapThread plant ts h).1, (mapThread plant ts h).2.Backs v := by
  induction ts generalizing h with
  | nil => exact ⟨closed, nofun⟩
  | cons t ts ih =>
    obtain ⟨own, others⟩ := List.forall_mem_cons.1 each
    obtain ⟨_, later⟩ := List.forall_mem_cons.1 nested
    obtain ⟨closed, backs⟩ := own h closed
    have grows := (planted_mapThread (fun u hu h => planted_nested (later u hu) h) (plant t h).2).grows
    obtain ⟨closed, rest⟩ := ih later others closed
    exact ⟨closed, List.forall_mem_cons.2 ⟨backs.mono grows.size_le, rest⟩⟩

theorem backs_plant {depth : Nat} {t : Tree} (nested : t.Nested depth) (closed : h.Closed) :
    (plant t h).2.Closed ∧ (plant t h).2.Backs (plant t h).1 := by
  induction depth generalizing t h with
  | zero => exact nested.elim
  | succ depth ih =>
    obtain ⟨⟨name, id, ty, value, label⟩⟩ := t
    -- The slots of an array or object are planted first, and then stored together.
    have all (us : List Tree) (holds : value.storage? = some us) :=
      backs_mapThread (nested us holds) (fun u hu _ closed => ih (nested us holds u hu) closed) closed
    have stored (us : List Tree) (holds : value.storage? = some us) :
        ((plant.plantAll us h).2.alloc (plant.plantAll us h).1.toArray).2.Closed ∧
          ∀ v : Variable, v.value.storage? = some (plant.plantAll us h).2.size →
            ((plant.plantAll us h).2.alloc (plant.plantAll us h).1.toArray).2.Backs v := by
      rw [plantAll_eq]
      obtain ⟨closed, backs⟩ := all us holds
      refine ⟨closed.alloc fun w hw => backs w (List.mem_toArray.1 hw), fun v here r refers => ?_⟩
      cases here.symm.trans refers
      rw [size_alloc]
      exact Nat.lt_succ_self _
    cases value with
    | array us => exact ⟨(stored us rfl).1, (stored us rfl).2 _ rfl⟩
    | object cls us => exact ⟨(stored us rfl).1, (stored us rfl).2 _ rfl⟩
    | _ => exact ⟨closed, backs_of_none rfl⟩

end Heap

namespace Program

variable {p : Program} {x y : Execution Variable} {s : Session}

theorem backed_of_reload {saved heap loaded : Heap} {bytes : List UInt8} (closed : heap.Closed)
    (save : (x.save saved).toExcept = .ok bytes) (load : p.load bytes heap = .ok (y, loaded)) :
    Discipline.backing.HoldsIn y loaded := by
  have readable := Execution.readable_of_load save load
  obtain ⟨noError, rfl⟩ := Codec.ok_of_toExcept save
  obtain ⟨t, alike, run⟩ := (p.readsBack_execution saved x).accepts noError readable []
  rw [List.append_nil] at run
  unfold Program.load at load
  rw [run] at load
  cases load
  have nested : ∀ u ∈ t.slots, u.Nested maxDepth := fun u hu => by
    obtain ⟨v, _, shows⟩ := forall₂_exists_left alike.slots hu
    exact shows.nested
  obtain ⟨closed, slots⟩ := Heap.backs_mapThread nested (fun u hu _ closed => Heap.backs_plant (nested u hu) closed) closed
  rw [Heap.slots_plantExecution] at closed slots
  exact Discipline.holdsIn_of_slots closed slots

/-- What a host can come to from a function that it starts with arguments that it stored: it ticks it, with a budget
for each tick, asks it to stop, restores it, or saves it and loads it in any session. -/
inductive Lives (p : Program) : Execution Variable → Session → Prop
  | start {id : FunctionId} {args : List Variable} {x : Execution Variable} {s : Session} (closed : s.heap.Closed)
      (backed : ∀ v ∈ args, s.heap.Backs v) (start : p.startFunction? id args s.heap = some x) : Lives p x s
  | tick {x : Execution Variable} {s : Session} (budget : Nat) (h : Lives p x s) :
      Lives p ((p.withSteps budget).tick x s).execution ((p.withSteps budget).tick x s).session
  | stop {x : Execution Variable} {s : Session} (h : Lives p x s) : Lives p x.requestStop s
  | restore {x : Execution Variable} {s : Session} (h : Lives p x s) : Lives p (p.restore x).2 s
  | reload {x y : Execution Variable} {s s' : Session} {bytes : List UInt8} {loaded : Heap} (h : Lives p x s)
      (save : (x.save s.heap).toExcept = .ok bytes) (closed : s'.heap.Closed)
      (load : p.load bytes s'.heap = .ok (y, loaded)) : Lives p y { s' with heap := loaded }

theorem closed_bodies {id : String} {env : Environment} {tokens : List Token} (compiled : ofTokens id env tokens = .ok p) :
    ∀ f ∈ p.functions, f.body.Closed := by
  obtain ⟨D, typed⟩ := typed_ofTokens compiled
  exact fun f hf => closed_of_typed (typed.functions f hf).body

theorem guides_backing (code : ∀ f ∈ p.functions, f.body.Closed) (natives : ∀ f ∈ p.env.natives.natives, f.Backed)
    (budget : Nat) :
    Discipline.backing.Guides (p.withSteps budget) (fun _ i _ => i.Closed) fun _ i _ => i.Closed :=
  .of_permits Discipline.backing_permits (fun _ hi _ _ form => Heap.backs_of_none (hi.literal form))
    (fun _ _ hi hc => hi.part hc) code fun f hf _ phase ret hm => (natives f hf).serves hm phase ret

theorem Lives.backed (code : ∀ f ∈ p.functions, f.body.Closed) (natives : ∀ f ∈ p.env.natives.natives, f.Backed)
    (h : p.Lives x s) : Discipline.backing.HoldsIn x s.heap := by
  induction h with
  | start closed backed start => exact Discipline.holdsIn_of_start closed backed (fun _ _ _ _ _ => trivial) start
  | tick budget _ ih =>
    refine ((guides_backing code natives budget).tick ih (fun f y prepared => ?_) fun _ _ _ _ _ _ => trivial).2.1
    exact code f (List.mem_of_getElem? (prepare_right prepared).1)
  | stop _ ih => exact ih.stop
  | restore _ ih => exact ih.restore p
  | reload _ save closed load _ => exact backed_of_reload closed save load

end Program
end Tickwise
