import Tickwise.Scope.Overload
import Mathlib.Data.List.Nodup
set_option autoImplicit false

/-!
# Trees of instructions

All instructions of a tree, in the order of the source, and how a compiler that counts upward numbers them
and the variables that they declare.
-/
namespace Tickwise

theorem Place.sizeOf_lt_of_mem {p : Place Instr} {c : Instr} (hc : c ∈ p.indices) : sizeOf c < sizeOf p := by
  obtain ⟨a, ha, same⟩ := List.mem_filterMap.1 hc
  have inside := List.sizeOf_lt_of_mem ha
  cases a with
  | index e elem =>
    cases same
    obtain ⟨_, _, path, _⟩ := p
    simp at inside ⊢
    omega
  | field => cases same

theorem Catch.sizeOf_lt_of_mem {c : Instr} {catches : List (Catch Instr)}
    (hc : c ∈ catches.flatMap fun k => [k.filter, k.handler]) : sizeOf c < sizeOf catches := by
  obtain ⟨⟨filter, handler⟩, hk, h⟩ := List.mem_flatMap.1 hc
  have inside := List.sizeOf_lt_of_mem hk
  simp at inside h
  grind

namespace Instr

theorem sizeOf_lt_of_mem_toList {c : Instr} {o : Option Instr} (hc : c ∈ o.toList) : sizeOf c < sizeOf o := by
  cases Option.mem_toList.1 hc
  simp

theorem sizeOf_lt_of_mem_children {i c : Instr} (hc : c ∈ i.children) : sizeOf c < sizeOf i := by
  obtain ⟨id, span, form⟩ := i
  have list {l : List Instr} : c ∈ l → sizeOf c < sizeOf l := List.sizeOf_lt_of_mem
  have option {o : Option Instr} : c ∈ o.toList → sizeOf c < sizeOf o := sizeOf_lt_of_mem_toList
  have place {p : Place Instr} : c ∈ p.indices → sizeOf c < sizeOf p := Place.sizeOf_lt_of_mem
  have clauses {cs : List (Catch Instr)} : (c ∈ cs.flatMap fun k => [k.filter, k.handler]) → sizeOf c < sizeOf cs :=
    Catch.sizeOf_lt_of_mem
  have inside : sizeOf c < sizeOf form := by
    cases form <;> simp only [Instr.children, Instr.form, Form.children, List.mem_append, List.mem_cons,
      List.not_mem_nil] at hc <;> simp <;> grind
  simp
  omega

/-- An instruction and all that is executed beneath it. -/
def all (i : Instr) : List Instr :=
  i :: i.children.attach.flatMap fun c => all c.1
termination_by sizeOf i
decreasing_by exact sizeOf_lt_of_mem_children c.2

theorem all_eq (i : Instr) : i.all = i :: i.children.flatMap all := by
  rw [all]
  simp [List.flatMap_subtype]

/-- The place that an instruction follows. -/
def place? (i : Instr) : Option (Place Instr) :=
  match i.form with
  | .load place | .store place _ _ _ | .step place _ _ => some place
  | _ => none

def declared? (i : Instr) : Option VarId :=
  match i.form with
  | .declare var _ _ _ _ => some var
  | _ => none

end Instr

/-- An instruction and its parts have numbers below `n` and ranges of a kind. -/
inductive Instr.Within (P : Span → Prop) (n : Nat) : Instr → Prop
  | intro {i : Instr} (id : i.id < n) (span : P i.span) (parts : ∀ c ∈ i.children, Within P n c) :
      Within P n i

namespace Instr.Within

variable {P : Span → Prop} {n k : Nat} {i c : Instr}

theorem id (h : i.Within P n) : i.id < n := by
  cases h with
  | intro id _ _ => exact id

theorem span (h : i.Within P n) : P i.span := by
  cases h with
  | intro _ span _ => exact span

theorem part (h : i.Within P n) (hc : c ∈ i.children) : c.Within P n := by
  cases h with
  | intro _ _ parts => exact parts c hc

theorem of_all {i : Instr} (h : ∀ j ∈ i.all, j.id < n ∧ P j.span) : i.Within P n := by
  rw [all_eq] at h
  obtain ⟨⟨id, span⟩, parts⟩ := List.forall_mem_cons.1 h
  exact .intro id span fun c hc => of_all fun j hj => parts j (List.mem_flatMap.2 ⟨c, hc, hj⟩)
termination_by sizeOf i
decreasing_by exact sizeOf_lt_of_mem_children hc

end Instr.Within

structure Spread (lo hi : Nat) (xs : List Nat) : Prop where
  nodup : xs.Nodup
  range : ∀ x ∈ xs, lo ≤ x ∧ x < hi

namespace Spread

variable {lo mid hi : Nat} {xs ys : List Nat}

theorem nil : Spread lo hi [] := ⟨.nil, nofun⟩

theorem append (first : Spread lo mid xs) (second : Spread mid hi ys) (le : lo ≤ mid) (le' : mid ≤ hi) :
    Spread lo hi (xs ++ ys) := by
  refine ⟨List.nodup_append.2 ⟨first.nodup, second.nodup, fun x hx y hy => ?_⟩, fun x hx => ?_⟩
  · have below := (first.range x hx).2
    have above := (second.range y hy).1
    omega
  · rcases List.mem_append.1 hx with h | h
    · have := first.range x h
      omega
    · have := second.range x h
      omega

theorem cons (h : Spread lo hi xs) (le : lo ≤ hi) : Spread lo (hi + 1) (hi :: xs) := by
  refine ⟨List.nodup_cons.2 ⟨fun again => ?_, h.nodup⟩, fun x hx => ?_⟩
  · have := h.range hi again
    omega
  · rcases List.mem_cons.1 hx with rfl | hx
    · omega
    · have := h.range x hx
      omega

theorem perm (h : Spread lo hi xs) (same : xs.Perm ys) : Spread lo hi ys :=
  ⟨same.nodup_iff.1 h.nodup, fun x hx => h.range x (same.mem_iff.2 hx)⟩

end Spread

namespace Compile

structure Next where
  node : NodeId
  var : VarId

/-- The kind of the ranges of the tokens, and the range behind the last one. -/
structure Places where
  span : Span → Prop
  stop : Span

/-- An error is reported at a token or behind the last one. -/
def Places.Reports (P : Places) (span : Span) : Prop := P.span span ∨ span = P.stop

/-- What is known while a function is compiled: of the ranges in the source, of its first variable, of the
variables from outside that are in sight, and of the functions that it can call. -/
structure Setting extends Places where
  base : VarId
  outer : VarId → Prop
  known : Signature → Prop

def Setting.Declares (K : Setting) (m : Next) (x : VarId) : Prop := K.outer x ∨ K.base ≤ x ∧ x < m.var

theorem Setting.Declares.mono {K : Setting} {m m₁ : Next} {x : VarId} (h : K.Declares m x) (le : m.var ≤ m₁.var) :
    K.Declares m₁ x :=
  h.imp id fun h => ⟨h.1, Nat.lt_of_lt_of_le h.2 le⟩

end Compile

open Compile

variable {K : Setting} {m m₁ m₂ : Next} {L L' R : List Instr} {i : Instr} {form : Form Instr} {span : Span}

def Form.Regular (K : Setting) (m : Next) : Form Instr → Prop
  | .load place | .store place _ _ _ | .step place _ _ => K.Declares m place.root
  | .call (.user id) args _ => ∃ f, K.known f ∧ f.id = id ∧ f.params.length = args.length
  | .switch _ _ cases body => (cases.map Case.value).Nodup ∧ ∀ c ∈ cases, c.start ≤ body.length
  | _ => True

theorem Form.Regular.mono (h : form.Regular K m) (le : m.var ≤ m₁.var) : form.Regular K m₁ := by
  cases form with
  | load | store | step => exact Setting.Declares.mono h le
  | call callee => cases callee <;> exact h
  | switch => exact h
  | _ => trivial

structure Made (K : Setting) (m m₁ : Next) (L : List Instr) : Prop where
  node : m.node ≤ m₁.node
  var : m.var ≤ m₁.var
  ids : Spread m.node m₁.node (L.map Instr.id)
  vars : Spread m.var m₁.var (L.filterMap Instr.declared?)
  covers : ∀ x, m.var ≤ x → x < m₁.var → x ∈ L.filterMap Instr.declared?
  regular : ∀ j ∈ L, K.span j.span ∧ j.form.Regular K m₁

namespace Made

theorem nil : Made K m m [] :=
  ⟨Nat.le_refl _, Nat.le_refl _, .nil, .nil, fun _ above below => absurd above (Nat.not_le.2 below), nofun⟩

theorem append (first : Made K m m₁ L) (second : Made K m₁ m₂ L') : Made K m m₂ (L ++ L') where
  node := Nat.le_trans first.node second.node
  var := Nat.le_trans first.var second.var
  ids := by
    rw [List.map_append]
    exact first.ids.append second.ids first.node second.node
  vars := by
    rw [List.filterMap_append]
    exact first.vars.append second.vars first.var second.var
  covers x above below := by
    rw [List.filterMap_append, List.mem_append]
    by_cases h : x < m₁.var
    · exact .inl (first.covers x above h)
    · exact .inr (second.covers x (Nat.not_lt.1 h) below)
  regular j hj := by
    rcases List.mem_append.1 hj with h | h
    · exact ⟨(first.regular j h).1, (first.regular j h).2.mono second.var⟩
    · exact second.regular j h

theorem perm (h : Made K m m₁ L) (same : L.Perm L') : Made K m m₁ L' where
  node := h.node
  var := h.var
  ids := h.ids.perm (same.map _)
  vars := h.vars.perm (same.filterMap _)
  covers x above below := (same.filterMap _).mem_iff.1 (h.covers x above below)
  regular j hj := h.regular j (same.mem_iff.2 hj)

theorem cons (first : Made K m m₁ L) (second : Made K m₁ m₂ L') : Made K m m₂ (L' ++ L) :=
  (first.append second).perm List.perm_append_comm

theorem reverse_iff {is : List Instr} : Made K m m₁ (is.reverse.flatMap Instr.all) ↔ Made K m m₁ (is.flatMap Instr.all) :=
  have same := (List.reverse_perm is).flatMap_right Instr.all
  ⟨(perm · same), (perm · same.symm)⟩

theorem grow (h : Made K m m₁ (form.children.flatMap Instr.all ++ R)) (hs : K.span span)
    (plain : (Instr.mk m₁.node span form).declared? = none) (regular : form.Regular K m₁) :
    Made K m ⟨m₁.node + 1, m₁.var⟩ ((Instr.mk m₁.node span form).all ++ R) where
  node := Nat.le_succ_of_le h.node
  var := h.var
  ids := by
    rw [Instr.all_eq]
    exact h.ids.cons h.node
  vars := by
    rw [Instr.all_eq, List.cons_append, List.filterMap_cons, plain]
    exact h.vars
  covers x above below := by
    rw [Instr.all_eq, List.cons_append, List.filterMap_cons, plain]
    exact h.covers x above below
  regular j hj := by
    rw [Instr.all_eq, List.cons_append, List.mem_cons] at hj
    rcases hj with rfl | hj
    · exact ⟨hs, regular⟩
    · exact h.regular j hj

theorem wrap (h : Made K m m₁ (form.children.flatMap Instr.all)) (hs : K.span span)
    (plain : (Instr.mk m₁.node span form).declared? = none) (regular : form.Regular K m₁) :
    Made K m ⟨m₁.node + 1, m₁.var⟩ (Instr.mk m₁.node span form).all := by
  rw [← List.append_nil (form.children.flatMap Instr.all)] at h
  have grown := h.grow hs plain regular
  rwa [List.append_nil] at grown

theorem declare {name : String} {ty : Ty} {dims : List Instr} {init : Option Instr}
    (h : Made K m m₁ ((dims ++ init.toList).flatMap Instr.all)) (hs : K.span span) :
    Made K m ⟨m₁.node + 1, m₁.var + 1⟩ (Instr.mk m₁.node span (.declare m₁.var name ty dims init)).all where
  node := Nat.le_succ_of_le h.node
  var := Nat.le_succ_of_le h.var
  ids := by
    rw [Instr.all_eq]
    exact h.ids.cons h.node
  vars := by
    rw [Instr.all_eq]
    exact h.vars.cons h.var
  covers x above below := by
    rw [Instr.all_eq]
    change x ∈ m₁.var :: _
    by_cases last : x = m₁.var
    · exact last ▸ List.mem_cons_self
    · exact List.mem_cons_of_mem _ (h.covers x above (Nat.lt_of_le_of_ne (Nat.le_of_lt_succ below) last))
  regular j hj := by
    rw [Instr.all_eq] at hj
    rcases List.mem_cons.1 hj with rfl | hj
    · exact ⟨hs, trivial⟩
    · exact ⟨(h.regular j hj).1, (h.regular j hj).2.mono (Nat.le_succ _)⟩

theorem prune (h : Made K m m₁ (i.all ++ R)) (plain : i.declared? = none) :
    Made K m m₁ (i.children.flatMap Instr.all ++ R) := by
  rw [Instr.all_eq] at h
  refine ⟨h.node, h.var, ?_, ?_, fun x above below => ?_, fun j hj => h.regular j (List.mem_cons_of_mem _ hj)⟩
  · exact ⟨(List.nodup_cons.1 h.ids.nodup).2, fun x hx => h.ids.range x (List.mem_cons_of_mem _ hx)⟩
  · have vars := h.vars
    rwa [List.cons_append, List.filterMap_cons, plain] at vars
  · have covers := h.covers x above below
    rwa [List.cons_append, List.filterMap_cons, plain] at covers

end Made

/-- Instructions that were made without a declaration. -/
structure Formed (K : Setting) (m m₁ : Next) (L : List Instr) : Prop extends Made K m m₁ L where
  same : m₁.var = m.var

namespace Formed

theorem nil : Formed K m m [] := ⟨.nil, rfl⟩

theorem append (first : Formed K m m₁ L) (second : Formed K m₁ m₂ L') : Formed K m m₂ (L ++ L') :=
  ⟨first.toMade.append second.toMade, second.same.trans first.same⟩

theorem perm (h : Formed K m m₁ L) (same : L.Perm L') : Formed K m m₁ L' := ⟨h.toMade.perm same, h.same⟩

theorem reverse_iff {is : List Instr} :
    Formed K m m₁ (is.reverse.flatMap Instr.all) ↔ Formed K m m₁ (is.flatMap Instr.all) :=
  ⟨fun h => ⟨Made.reverse_iff.1 h.toMade, h.same⟩, fun h => ⟨Made.reverse_iff.2 h.toMade, h.same⟩⟩

theorem cons (first : Formed K m m₁ L) (second : Formed K m₁ m₂ L') : Formed K m m₂ (L' ++ L) :=
  (first.append second).perm List.perm_append_comm

theorem grow (h : Formed K m m₁ (form.children.flatMap Instr.all ++ R)) (hs : K.span span)
    (plain : (Instr.mk m₁.node span form).declared? = none) (regular : form.Regular K m₁) :
    Formed K m ⟨m₁.node + 1, m₁.var⟩ ((Instr.mk m₁.node span form).all ++ R) :=
  ⟨h.toMade.grow hs plain regular, h.same⟩

theorem prune (h : Formed K m m₁ (i.all ++ R)) (plain : i.declared? = none) :
    Formed K m m₁ (i.children.flatMap Instr.all ++ R) :=
  ⟨h.toMade.prune plain, h.same⟩

theorem forget (h : Formed K m m₁ L) : Formed K m m₁ [] where
  node := h.node
  var := h.var
  ids := .nil
  vars := .nil
  covers _ above below := absurd above (Nat.not_le.2 (h.same ▸ below))
  regular := nofun
  same := h.same

theorem ranged (h : Formed K m m₁ (i.all ++ R)) : K.span i.span := by
  rw [Instr.all_eq] at h
  exact (h.regular i List.mem_cons_self).1

end Formed
end Tickwise
