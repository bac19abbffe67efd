import Mathlib.Data.List.Forall2
import Mathlib.Logic.Relation
import Tickwise.Proofs.Storage.Heap
set_option autoImplicit false

/-!
# Alike variables

Two variables are alike under a relation of what arrays and objects refer to if they agree in everything
else. Two heaps are alike under a relation of their references if related references lead to alike slots,
so variables that are alike hold the same however deep one looks. A variable shows a tree if it holds what
the tree has written out.
-/
namespace Tickwise

theorem forall₂_of_zip {α β : Type} {P Q : α → β → Prop} {as : List α} {bs : List β} (h : as.Forall₂ P bs)
    (imp : ∀ a b, (a, b) ∈ as.zip bs → P a b → Q a b) : as.Forall₂ Q bs :=
  List.forall₂_iff_zip.2 ⟨h.length_eq, fun mem => imp _ _ mem (List.forall₂_zip h mem)⟩

theorem forall₂_imp_mem {α β : Type} {P Q : α → β → Prop} {as : List α} {bs : List β}
    (h : as.Forall₂ P bs) (imp : ∀ a b, a ∈ as → b ∈ bs → P a b → Q a b) : as.Forall₂ Q bs :=
  forall₂_of_zip h fun a b mem => imp a b (List.of_mem_zip mem).1 (List.of_mem_zip mem).2

theorem forall₂_exists_left {α β : Type} {P : α → β → Prop} {as : List α} {bs : List β} (h : as.Forall₂ P bs)
    {b : β} (hb : b ∈ bs) : ∃ a ∈ as, P a b := by
  induction h with
  | nil => cases hb
  | cons hp _ ih =>
    rcases List.mem_cons.1 hb with rfl | hb
    · exact ⟨_, List.mem_cons_self, hp⟩
    · obtain ⟨a, ha, hp⟩ := ih hb
      exact ⟨a, List.mem_cons_of_mem _ ha, hp⟩

theorem forall₂_getElem? {α β : Type} {P : α → β → Prop} {as : List α} {bs : List β} (h : as.Forall₂ P bs)
    (i : Nat) : Option.Rel P as[i]? bs[i]? := by
  induction h generalizing i with
  | nil => exact .none
  | cons hp _ ih =>
    cases i with
    | zero => exact .some hp
    | succ i => exact ih i

theorem forall₂_set {α β : Type} {P : α → β → Prop} {as : List α} {bs : List β} (h : as.Forall₂ P bs)
    (i : Nat) {a : α} {b : β} (hp : P a b) : (as.set i a).Forall₂ P (bs.set i b) := by
  induction h generalizing i with
  | nil => exact .nil
  | cons first rest ih =>
    cases i with
    | zero => exact .cons hp rest
    | succ i => exact .cons first (ih i)

theorem forall₂_replicate {α β : Type} {P : α → β → Prop} (n : Nat) {a : α} {b : β} (hp : P a b) :
    (List.replicate n a).Forall₂ P (List.replicate n b) := by
  induction n with
  | zero => exact .nil
  | succ n ih => exact .cons hp ih

theorem forall₂_comp {α β γ : Type} {P : α → β → Prop} {Q : β → γ → Prop} {R : α → γ → Prop} {as : List α}
    {bs : List β} {cs : List γ} (h : as.Forall₂ P bs) (h' : bs.Forall₂ Q cs)
    (both : ∀ a b c, P a b → Q b c → R a c) : as.Forall₂ R cs := by
  induction h generalizing cs with
  | nil =>
    cases h'
    exact .nil
  | cons hp _ ih =>
    cases h' with
    | cons hq h' => exact .cons (both _ _ _ hp hq) (ih h')

theorem forall₂_comp_flip {α β γ : Type} {P : α → γ → Prop} {Q : β → γ → Prop} {R : α → β → Prop}
    {as : List α} {bs : List β} {cs : List γ} (h : as.Forall₂ P cs) (h' : bs.Forall₂ Q cs)
    (both : ∀ a b c, P a c → Q b c → R a b) : as.Forall₂ R bs :=
  forall₂_comp h (.flip h') fun a c b => both a b c

theorem forall₂_append_split {α β : Type} {P : α → β → Prop} {as bs : List α} {cs ds : List β}
    (length : as.length = cs.length) (h : (as ++ bs).Forall₂ P (cs ++ ds)) :
    as.Forall₂ P cs ∧ bs.Forall₂ P ds := by
  have front := List.forall₂_take as.length h
  have back := List.forall₂_drop as.length h
  rw [List.take_left, length, List.take_left] at front
  rw [List.drop_left, length, List.drop_left] at back
  exact ⟨front, back⟩

/-- The same values, with related contents. Floats are the same bit for bit. -/
inductive Value.Alike {ρ σ : Type} (R : ρ → σ → Prop) : Value ρ → Value σ → Prop
  | unassigned : Alike R .unassigned .unassigned
  | void : Alike R .void .void
  | bool (b : Bool) : Alike R (.bool b) (.bool b)
  | int (i : Int32) : Alike R (.int i) (.int i)
  | float (x : Binary32) : Alike R (.float x) (.float x)
  | string (s : String) : Alike R (.string s) (.string s)
  | null : Alike R .null .null
  | array {r : ρ} {q : σ} (h : R r q) : Alike R (.array r) (.array q)
  | object (cls : String) {r : ρ} {q : σ} (h : R r q) : Alike R (.object cls r) (.object cls q)

structure Slot.Alike {ρ σ : Type} (R : ρ → σ → Prop) (v : Slot ρ) (w : Slot σ) : Prop where
  name : v.name = w.name
  id : v.id = w.id
  ty : v.ty = w.ty
  value : v.value.Alike R w.value
  label : v.label = w.label

/-- What an array or object refers to. -/
def Value.storage? {ρ : Type} : Value ρ → Option ρ
  | .array r | .object _ r => some r
  | _ => none

section

variable {ρ σ τ : Type} {R R' : ρ → σ → Prop} {S : σ → τ → Prop}

namespace Value.Alike

variable {a : Value ρ} {b : Value σ} {c : Value τ}

theorem mono (h : a.Alike R b) (le : ∀ r q, a.storage? = some r → b.storage? = some q → R r q → R' r q) :
    a.Alike R' b := by
  cases h with
  | array h => exact .array (le _ _ rfl rfl h)
  | object cls h => exact .object cls (le _ _ rfl rfl h)
  | _ => constructor

theorem comp (h : a.Alike R b) (h' : b.Alike S c) : a.Alike (Relation.Comp R S) c := by
  cases h with
  | array h =>
    cases h' with
    | array h' => exact .array ⟨_, h, h'⟩
  | object cls h =>
    cases h' with
    | object _ h' => exact .object cls ⟨_, h, h'⟩
  | _ =>
    cases h'
    constructor

theorem flip (h : a.Alike R b) : b.Alike (flip R) a := by
  cases h with
  | array h => exact .array h
  | object cls h => exact .object cls h
  | _ => constructor

theorem fits (h : a.Alike R b) (ty : Ty) : a.fits ty = b.fits ty := by
  cases h <;> cases ty <;> rfl

theorem isUnassigned (h : a.Alike R b) : a.isUnassigned = b.isUnassigned := by
  cases h <;> rfl

end Value.Alike

namespace Slot.Alike

variable {v : Slot ρ} {w : Slot σ} {u : Slot τ}

theorem mono (h : v.Alike R w)
    (le : ∀ r q, v.value.storage? = some r → w.value.storage? = some q → R r q → R' r q) :
    v.Alike R' w :=
  { h with value := h.value.mono le }

theorem comp (h : v.Alike R w) (h' : w.Alike S u) : v.Alike (Relation.Comp R S) u where
  name := h.name.trans h'.name
  id := h.id.trans h'.id
  ty := h.ty.trans h'.ty
  value := h.value.comp h'.value
  label := h.label.trans h'.label

theorem flip (h : v.Alike R w) : w.Alike (flip R) v :=
  ⟨h.name.symm, h.id.symm, h.ty.symm, h.value.flip, h.label.symm⟩

theorem refl {R : ρ → ρ → Prop} {v : Slot ρ} (h : ∀ r, v.value.storage? = some r → R r r) : v.Alike R v where
  name := rfl
  id := rfl
  ty := rfl
  value := by
    cases hv : v.value with
    | array r => exact .array (h r (by rw [hv]; rfl))
    | object cls r => exact .object cls (h r (by rw [hv]; rfl))
    | _ => constructor
  label := rfl

end Slot.Alike

end

namespace Heap

def entries (h : Heap) (v : Variable) : List Variable :=
  match v.value.storage? with
  | none => []
  | some r => (h.elements r).toList

/-- Is a variable held by another one, however deep? -/
inductive Holds (h : Heap) : Variable → Variable → Prop
  | self (v : Variable) : Holds h v v
  | entry {v e w : Variable} (first : e ∈ h.entries v) (rest : Holds h e w) : Holds h v w

theorem forall_holds_iff {h : Heap} {P : Variable → Prop} {v : Variable} :
    (∀ w, h.Holds v w → P w) ↔ P v ∧ ∀ e ∈ h.entries v, ∀ w, h.Holds e w → P w := by
  constructor
  · intro all
    exact ⟨all v (.self v), fun e first w rest => all w (.entry first rest)⟩
  · rintro ⟨own, inner⟩ w holds
    cases holds with
    | self => exact own
    | entry first rest => exact inner _ first w rest

def Alike (h : Heap) (R : Ref → Ref → Prop) (k : Heap) : Prop :=
  ∀ r q, R r q → List.Forall₂ (Slot.Alike R) (h.elements r).toList (k.elements q).toList

/-- Two variables hold the same, whatever storage it is in. -/
def SameContent (h k : Heap) (v w : Variable) : Prop := ∃ R, h.Alike R k ∧ v.Alike R w

def Shows (h : Heap) : (depth : Nat) → Variable → Tree → Prop
  | 0, _, _ => False
  | depth + 1, v, t =>
    v.Alike (fun r ts => List.Forall₂ (h.Shows depth) (h.elements r).toList ts) t.slot

theorem sameContent_of_shows {h k : Heap} {depth : Nat} {v w : Variable} {t : Tree}
    (hv : h.Shows depth v t) (hw : k.Shows depth w t) : SameContent h k v w := by
  let R : Ref → Ref → Prop := fun r q => ∃ depth ts,
    List.Forall₂ (h.Shows depth) (h.elements r).toList ts ∧
      List.Forall₂ (k.Shows depth) (k.elements q).toList ts
  have slots (depth : Nat) (v w : Variable) (t : Tree) (hv : h.Shows depth v t)
      (hw : k.Shows depth w t) : v.Alike R w := by
    cases depth with
    | zero => exact hv.elim
    | succ depth =>
      have through := Slot.Alike.comp hv (Slot.Alike.flip hw)
      exact through.mono fun r q _ _ ⟨ts, hr, hq⟩ => ⟨depth, ts, hr, hq⟩
  refine ⟨R, ?_, slots depth v w t hv hw⟩
  rintro r q ⟨depth, ts, hr, hq⟩
  exact forall₂_comp_flip hr hq (slots depth)

end Heap
end Tickwise
