import Tickwise.Proofs.Compile.Trees
import Tickwise.Proofs.Machine.Agreement
set_option autoImplicit false

/-!
# Variables in sight

Which variables are declared in front of each position of an instruction, and the instructions that access
no others. A label of a switch may lie behind a declaration, which is then jumped over.
-/
namespace Tickwise

theorem getElem?_of_itemAt? {α : Type} {items : List α} {index : Int} {a : α} (h : itemAt? items index = some a) :
    0 ≤ index ∧ items[index.toNat]? = some a := by
  unfold itemAt? at h
  split at h
  case isTrue => cases h
  case isFalse from_zero => exact ⟨Int.not_lt.1 from_zero, h⟩

theorem Waiting.itemAt?_of_onEntry {ι : Type} {items : List ι} {index : Int} {c : ι}
    (h : onEntry items index = child c) : itemAt? items index = some c := by
  unfold onEntry at h
  cases hi : itemAt? items index with
  | none =>
    rw [hi] at h
    cases h
  | some a =>
    rw [hi] at h
    cases h
    rfl

theorem Waiting.beforeEntry_ne_child {ι : Type} {items : List ι} {index : Int} {c : ι} :
    beforeEntry items index ≠ child c := by
  unfold beforeEntry
  split <;> nofun

namespace Instr

def declares (i : Instr) : List VarId :=
  match i.form with
  | .declare var _ _ _ _ => [var]
  | .declList items => items.filterMap declared?
  | _ => []

def front (items : List Instr) (n : Nat) : List VarId := (items.take n).flatMap declares

/-- The variables that the parts of an instruction in front of a position leave declared. -/
def scopeAt (i : Instr) (state : Nat) (index : Int) : List VarId :=
  match i.form, state with
  | .block body, _ => front body index.toNat
  | .declList items, _ => front items index.toNat
  | .forLoop _ init _ _ _, 0 => front init index.toNat
  | .forLoop _ init _ _ _, _ => front init init.length
  | .switch _ _ _ body, _ + 1 => front body index.toNat
  | _, _ => []

/-- The variable may not be declared at a position of a switch, which a label was jumped to behind its
declaration. -/
def MayMiss (i : Instr) (state : Nat) (index : Int) (x : VarId) : Prop :=
  match i.form, state with
  | .switch _ _ cases body, _ + 1 => ∃ c ∈ cases, c.start ≤ index.toNat ∧ x ∈ front body c.start
  | _, _ => False

def Sure (i : Instr) (state : Nat) (index : Int) (x : VarId) : Prop :=
  x ∈ i.scopeAt state index ∧ ¬ i.MayMiss state index x

/-- The switch declares the variable in front of a label that an instruction is behind. -/
def Bypasses (switch i : Instr) (x : VarId) : Prop :=
  match switch.form with
  | .switch _ _ cases body => ∃ c ∈ cases, x ∈ front body c.start ∧ ∃ s ∈ body.drop c.start, i ∈ s.all
  | _ => False

/-- Among these variables are those that an instruction accesses, and with those that are declared meanwhile
all that its parts access. -/
inductive Sees : List VarId → Instr → Prop
  | intro {V : List VarId} {i : Instr} (root : ∀ place ∈ i.place?, place.root ∈ V)
      (parts : ∀ state index c, i.waiting state index = .child c → Sees (V ++ i.scopeAt state index) c) : Sees V i

def InTurn (V : List VarId) (items : List Instr) : Prop :=
  ∀ (k : Nat) (i : Instr), items[k]? = some i → i.Sees (V ++ front items k)

variable {V W : List VarId} {i c : Instr} {state : Nat} {index : Int} {x : VarId} {id : NodeId} {span : Span}
  {items body : List Instr}

theorem mem_all_self (i : Instr) : i ∈ i.all := by
  rw [all_eq]
  exact List.mem_cons_self

theorem mem_all_of_part {j : Instr} (hc : c ∈ i.children) (hj : j ∈ c.all) : j ∈ i.all := by
  rw [all_eq]
  exact List.mem_cons_of_mem _ (List.mem_flatMap.2 ⟨c, hc, hj⟩)

theorem mem_all_trans {i j k : Instr} (hj : j ∈ i.all) (hk : k ∈ j.all) : k ∈ i.all := by
  rw [all_eq] at hj
  rcases List.mem_cons.1 hj with rfl | hj
  · exact hk
  · obtain ⟨c, hc, hj⟩ := List.mem_flatMap.1 hj
    exact mem_all_of_part hc (mem_all_trans hj hk)
termination_by sizeOf i
decreasing_by exact sizeOf_lt_of_mem_children hc

theorem front_succ {n : Nat} (h : items[n]? = some i) : front items (n + 1) = front items n ++ i.declares := by
  unfold front
  rw [List.take_add_one, h, List.flatMap_append]
  simp

theorem front_mono {n m : Nat} (le : n ≤ m) (hx : x ∈ front items n) : x ∈ front items m := by
  obtain ⟨i, hi, hx⟩ := List.mem_flatMap.1 hx
  exact List.mem_flatMap.2 ⟨i, (List.take_sublist_take_left le).mem hi, hx⟩

theorem front_of_length_le {n : Nat} (le : items.length ≤ n) : front items n = items.flatMap declares := by
  rw [front, List.take_of_length_le le]

theorem MayMiss.bypasses (h : i.MayMiss state index x) (waits : i.waiting state index = .child c) {j : Instr}
    (hj : j ∈ c.all) : i.Bypasses j x := by
  unfold MayMiss at h
  split at h
  case h_2 => exact h.elim
  case h_1 label value cases body state form =>
    obtain ⟨k, hk, le, hx⟩ := h
    unfold Bypasses
    rw [form]
    refine ⟨k, hk, hx, c, ?_, hj⟩
    unfold waiting at waits
    rw [form] at waits
    have entry : Waiting.onEntry body index = .child c := by
      match state with
      | 0 => exact absurd waits Waiting.beforeEntry_ne_child
      | 1 => exact waits
      | _ + 2 => cases waits
    obtain ⟨_, item⟩ := getElem?_of_itemAt? (Waiting.itemAt?_of_onEntry entry)
    refine List.mem_of_getElem? (i := index.toNat - k.start) ?_
    rwa [List.getElem?_drop, Nat.add_sub_cancel' le]

theorem Bypasses.part {switch j : Instr} (h : switch.Bypasses i x) (hj : j ∈ i.all) : switch.Bypasses j x := by
  unfold Bypasses at h ⊢
  split at h
  case h_2 => exact h.elim
  case h_1 =>
    obtain ⟨k, hk, hx, s, hs, hi⟩ := h
    exact ⟨k, hk, hx, s, hs, mem_all_trans hi hj⟩

namespace Sees

theorem root (h : i.Sees V) : ∀ place ∈ i.place?, place.root ∈ V := by
  cases h with
  | intro root _ => exact root

theorem part (h : i.Sees V) (waits : i.waiting state index = .child c) : c.Sees (V ++ i.scopeAt state index) := by
  cases h with
  | intro _ parts => exact parts state index c waits

theorem mono (h : i.Sees V) (sub : V ⊆ W) : i.Sees W := by
  induction h generalizing W with
  | intro root _ ih =>
    refine .intro (fun place hp => sub (root place hp)) fun state index c waits => ?_
    exact ih state index c waits (List.append_subset.2
      ⟨List.subset_append_of_subset_left _ sub, List.subset_append_right _ _⟩)

theorem of_parts (root : ∀ place ∈ i.place?, place.root ∈ V) (parts : ∀ c ∈ i.children, c.Sees V) : i.Sees V :=
  .intro root fun _ _ c waits => (parts c (Form.mem_children_of_waiting waits)).mono (List.subset_append_left _ _)

theorem of_all {i : Instr} (h : ∀ j ∈ i.all, ∀ place ∈ j.place?, place.root ∈ V) : i.Sees V :=
  of_parts (h i (mem_all_self i)) fun _ hc => of_all fun j hj => h j (mem_all_of_part hc hj)
termination_by sizeOf i
decreasing_by exact sizeOf_lt_of_mem_children hc

end Sees

namespace InTurn

theorem nil : InTurn V [] := nofun

theorem snoc (h : InTurn V items) (hi : i.Sees (V ++ items.flatMap declares)) : InTurn V (items ++ [i]) := by
  intro k j hk
  rcases Nat.lt_or_ge k items.length with lt | ge
  · rw [List.getElem?_append_left lt] at hk
    rw [front, List.take_append_of_le_length (Nat.le_of_lt lt)]
    exact h k j hk
  · obtain ⟨lt, rfl⟩ := List.getElem?_eq_some_iff.1 hk
    obtain rfl : k = items.length := by
      rw [List.length_append, List.length_singleton] at lt
      omega
    rw [front, List.take_left, List.getElem_concat_length rfl]
    exact hi

theorem at_entry (h : InTurn V items) (entry : Waiting.onEntry items index = .child c) :
    c.Sees (V ++ front items index.toNat) :=
  h _ c (getElem?_of_itemAt? (Waiting.itemAt?_of_onEntry entry)).2

theorem block (h : InTurn V body) : (Instr.mk id span (.block body)).Sees V := by
  refine .intro nofun fun state index c waits => ?_
  match state with
  | 0 => exact absurd waits Waiting.beforeEntry_ne_child
  | 1 => exact h.at_entry waits
  | _ + 2 => cases waits

theorem declList (h : InTurn V items) : (Instr.mk id span (.declList items)).Sees V := by
  refine .intro nofun fun state index c waits => ?_
  match state with
  | 0 => exact h.at_entry waits
  | _ + 1 => cases waits

theorem switch {label : Option String} {value : Instr} {cases : List Case} (hv : value.Sees V) (h : InTurn V body) :
    (Instr.mk id span (.switch label value cases body)).Sees V := by
  refine .intro nofun fun state index c waits => ?_
  match state with
  | 0 =>
    cases waits
    exact hv.mono (List.subset_append_left _ _)
  | 1 => exact absurd waits Waiting.beforeEntry_ne_child
  | 2 => exact h.at_entry waits
  | _ + 3 => cases waits

theorem forLoop {label : Option String} {init : List Instr} {cond : Option Instr} {next : List Instr} {body : Instr}
    (hi : InTurn V init) (hc : ∀ c ∈ cond, c.Sees (V ++ init.flatMap declares))
    (hn : ∀ c ∈ next, c.Sees (V ++ init.flatMap declares)) (hb : body.Sees (V ++ init.flatMap declares)) :
    (Instr.mk id span (.forLoop label init cond next body)).Sees V := by
  rw [← front_of_length_le (Nat.le_refl _)] at hc hn hb
  refine .intro nofun fun state index c waits => ?_
  match state with
  | 0 => exact hi.at_entry waits
  | 1 =>
    cases cond with
    | none => cases waits
    | some cond =>
      cases waits
      exact hc _ rfl
  | 2 => cases waits
  | 3 =>
    cases waits
    exact hb
  | 4 => exact hn c (mem_of_itemAt? (Waiting.itemAt?_of_onEntry waits))
  | _ + 5 => cases waits

end InTurn
end Instr
end Tickwise
