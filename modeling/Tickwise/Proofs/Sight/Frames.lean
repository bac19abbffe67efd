import Tickwise.Proofs.Machine.InFlight
import Tickwise.Proofs.Sight.Positions
import Tickwise.Proofs.Sight.Scopes
import Tickwise.Proofs.Sight.Units
set_option autoImplicit false

/-!
# Frames with variables in sight

Frames of instructions, each with the variables that it accesses declared in it or around it, except for those
whose declarations a label of a switch has bypassed.
-/
namespace Tickwise

open Exec Tickwise.Frame

/-- The variables that an instruction accesses from outside are declared in the frames, or bypassed. -/
def Instr.InSight (p : Program) (i : Instr) (fs : List (Frame Variable)) : Prop :=
  ∃ V, i.Sees V ∧ ∀ x ∈ V, p.Bypasses i x ∨ Declared x fs

/-- A frame at the position of another one, with as many operands and the same variables. -/
structure Frame.Resembles (f g : Frame Variable) : Prop where
  node : g.node = f.node
  state : g.state = f.state
  index : g.index = f.index
  operands : g.operands.length = f.operands.length
  scope : g.scope = f.scope
  keeps : f.Keeps g

/-- A frame of an instruction with these frames around it, at a position with what is declared in front of it. -/
structure Frame.Placed (p : Program) (i : Instr) (around : List (Frame Variable)) (f : Frame Variable) : Prop where
  sight : i.InSight p (f :: around)
  enclosed : f.call = false → Enclosed around
  scope : f.call = true → f.scope = true
  parts : i.isLeaf = false
  beside : i.declares ≠ [] → f.scope = false ∧ f.call = false
  sure : ∀ x, i.Sure f.state f.index x → Declared x (f :: around)
  from_zero : i.form.isSeries = true → 0 ≤ f.index
  gathers : ∀ {id args ret}, i.form = .call (.user id) args ret → f.Gathers args

/-- An instruction can go on with these frames beneath those around it, outermost first. -/
def Stacked (p : Program) : Instr → (around deeper : List (Frame Variable)) → Prop
  | i, around, [] => i.InSight p around ∧ Enclosed around
  | i, around, f :: rest => f.Placed p i around ∧ match i.waiting f.state f.index with
    | .child c => Stacked p c (f :: around) rest
    | .callee id => ∀ g, p.function? id = some g → Stacked p g.body (f :: around) rest
    | _ => True

variable {p : Program} {i c : Instr} {f g : Frame Variable} {around beyond fs gs deeper rest : List (Frame Variable)}

namespace Instr.InSight

theorem keep (h : i.InSight p fs) (keep : List.Forall₂ Frame.Keeps fs gs) : i.InSight p gs := by
  obtain ⟨V, sees, declared⟩ := h
  exact ⟨V, sees, fun x hx => (declared x hx).imp_right fun h => h.keep keep⟩

theorem push (h : i.InSight p fs) (inner : f.call = false) : i.InSight p (f :: fs) := by
  obtain ⟨V, sees, declared⟩ := h
  exact ⟨V, sees, fun x hx => (declared x hx).imp_right fun h => .inr ⟨inner, h⟩⟩

theorem root {place : Place Instr} (h : i.InSight p fs) (hp : place ∈ i.place?) :
    p.Bypasses i place.root ∨ Declared place.root fs := by
  obtain ⟨V, sees, declared⟩ := h
  exact declared _ (sees.root place hp)

theorem part {state : Nat} {index : Int} (h : i.InSight p fs) (contains : p.Contains i)
    (waits : i.waiting state index = .child c) (sure : ∀ x, i.Sure state index x → Declared x fs) :
    c.InSight p fs := by
  obtain ⟨V, sees, declared⟩ := h
  have hc := Form.mem_children_of_waiting waits
  refine ⟨V ++ i.scopeAt state index, sees.part waits, fun x hx => ?_⟩
  rcases List.mem_append.1 hx with outer | own
  · refine (declared x outer).imp_left fun ⟨s, known, bypasses⟩ => ⟨s, known, bypasses.part ?_⟩
    exact mem_all_of_part hc (mem_all_self c)
  · -- Declared in front of the position, it is there for sure unless a label behind its declaration was jumped to.
    by_cases missed : i.MayMiss state index x
    · exact .inl ⟨i, contains, missed.bypasses waits (mem_all_self c)⟩
    · exact .inr (sure x ⟨own, missed⟩)

end Instr.InSight

theorem Instr.scopeAt_zero (i : Instr) : i.scopeAt 0 0 = [] := by
  obtain ⟨_, _, form⟩ := i
  cases form <;> rfl

theorem Instr.Onward.stays (state : g.state = f.state) (index : g.index = f.index)
    (operands : g.operands.length = f.operands.length) (scope : g.scope = f.scope) : i.Onward f [] g := by
  refine ⟨fun _ x hx => .inl (by rwa [state, index] at hx), fun _ => scope, fun _ from_zero => ?_,
    fun _ gathers => ⟨?_, ?_, ?_⟩⟩
  · rwa [index]
  · rw [state, index, operands]
    exact gathers.index
  · rw [state, operands]
    exact gathers.within
  · rw [state, operands]
    exact gathers.all

theorem Instr.Onward.same (h : g.bare = f.bare) : i.Onward f [] g :=
  have state : g.bare.state = f.bare.state := congrArg Frame.state h
  have index : g.bare.index = f.bare.index := congrArg Frame.index h
  have operands : g.bare.operands.length = f.bare.operands.length := congrArg (·.operands.length) h
  have scope : g.bare.scope = f.bare.scope := congrArg Frame.scope h
  .stays state index operands scope

theorem Frame.Resembles.refl (f : Frame Variable) : f.Resembles f := ⟨rfl, rfl, rfl, rfl, rfl, .refl f⟩

namespace Frame.Placed

theorem enclosed_self (h : f.Placed p i around) : Enclosed (f :: around) := by
  cases hc : f.call with
  | true => exact .inl ⟨h.scope hc, trivial⟩
  | false => exact .inr ⟨hc, h.enclosed hc⟩

theorem onward {D : List VarId} (h : f.Placed p i around) (on : i.Onward f D g)
    (keep : List.Forall₂ Frame.Keeps (f :: around) (g :: beyond)) (declared : ∀ x ∈ D, Declared x (g :: beyond)) :
    g.Placed p i beyond := by
  have sight := h.sight.keep keep
  have sure (x : VarId) (hx : i.Sure f.state f.index x) : Declared x (g :: beyond) := (h.sure x hx).keep keep
  cases keep with
  | cons own keep =>
    refine ⟨sight, fun inner => ?_, fun call => ?_, h.parts, fun bare => ?_, fun x hx => ?_, fun series => ?_,
      fun form => ?_⟩
    · rw [own.call] at inner
      exact (h.enclosed inner).keep keep
    · rw [own.call] at call
      exact own.scope (h.scope call)
    · rw [own.call, on.scope bare]
      exact h.beside bare
    · exact (on.sure h.from_zero x hx).elim (sure x) (declared x)
    · exact on.from_zero series (h.from_zero series)
    · exact on.gathers form (h.gathers form)

theorem same (h : f.Placed p i around) (bare : g.bare = f.bare)
    (keep : List.Forall₂ Frame.Keeps (f :: around) (g :: beyond)) : g.Placed p i beyond :=
  h.onward (.same bare) keep fun _ hx => absurd hx List.not_mem_nil

theorem resembling (h : f.Placed p i around) (resembles : f.Resembles g)
    (keep : List.Forall₂ Frame.Keeps (f :: around) (g :: beyond)) : g.Placed p i beyond :=
  h.onward (.stays resembles.state resembles.index resembles.operands resembles.scope) keep
    fun _ hx => absurd hx List.not_mem_nil

theorem stacked (h : f.Placed p i around) (contains : p.Contains i)
    (own : ∀ id, i.waiting f.state f.index ≠ .callee id) : Stacked p i around [f] := by
  refine ⟨h, ?_⟩
  split
  case h_1 c waits => exact ⟨h.sight.part contains waits h.sure, h.enclosed_self⟩
  case h_2 id waits => exact absurd waits (own id)
  case h_3 => trivial

theorem stacked_start (h : f.Placed p i around) (contains : p.Contains i) (start : f.state = 0) :
    Stacked p i around [f] := by
  refine h.stacked contains fun id => Form.waiting_ne_callee ?_ f.index id
  rw [start]
  exact i.form.ownStates_pos

theorem fresh (sight : i.InSight p around) (enclosed : Enclosed around) (parts : i.isLeaf = false) :
    (Frame.start i.id).Placed p i around := by
  refine ⟨sight.push rfl, fun _ => enclosed, nofun, parts, fun _ => ⟨rfl, rfl⟩, fun x hx => ?_,
    fun _ => Int.le_refl 0, ?_⟩
  · have declared : x ∈ i.scopeAt 0 0 := hx.1
    rw [Instr.scopeAt_zero] at declared
    cases declared
  · exact fun _ => ⟨fun _ => rfl, fun _ => Nat.zero_le _, nofun⟩

end Frame.Placed

theorem has_of_bindParams {h : Heap} {params : List Parameter} {args locals : List Variable}
    (bound : bindParams h params args = .ok locals) (arity : args.length = params.length) :
    ∀ q ∈ params, ∃ v ∈ locals, v.id = q.var := by
  induction params generalizing args locals with
  | nil => nofun
  | cons q params ih =>
    cases args with
    | nil => cases arity
    | cons v args =>
      obtain ⟨w, assigned, bound⟩ := ok_of_bind_except bound
      obtain ⟨ws, rest, bound⟩ := ok_of_bind_except bound
      cases bound
      refine List.forall_mem_cons.2 ⟨⟨w, List.mem_cons_self, Heap.id_of_assign assigned⟩, fun r hr => ?_⟩
      obtain ⟨u, hu, same⟩ := ih rest (Nat.succ.inj arity) r hr
      exact ⟨u, List.mem_cons_of_mem _ hu, same⟩

theorem Frame.Placed.ofCall (hp : p.Sighted) {id : FunctionId} {callee : Function}
    (found : p.function? id = some callee) {h : Heap} {args locals : List Variable}
    (bound : bindParams h callee.params args = .ok locals) (arity : args.length = callee.params.length) :
    (Frame.ofCall callee.body.id locals).Placed p callee.body around := by
  have known := List.mem_of_getElem? found
  obtain ⟨body, form⟩ := hp.braced callee known
  have declares : callee.body.declares = [] := by
    unfold Instr.declares
    rw [form]
  refine ⟨⟨_, hp.sees callee known, fun x hx => .inr (.inl ⟨rfl, ?_⟩)⟩, nofun, fun _ => rfl, ?_,
    fun bare => absurd declares bare, fun x hx => ?_, fun _ => Int.le_refl 0, fun call => ?_⟩
  · obtain ⟨q, hq, rfl⟩ := List.mem_map.1 hx
    exact has_of_bindParams bound arity q hq
  · unfold Instr.isLeaf
    rw [form]
    rfl
  · have declared : x ∈ callee.body.scopeAt 0 0 := hx.1
    rw [Instr.scopeAt_zero] at declared
    cases declared
  · rw [form] at call
    cases call

namespace Stacked

theorem resembling (h : Stacked p i around deeper) (keep : List.Forall₂ Frame.Keeps around beyond)
    (resemble : List.Forall₂ Frame.Resembles deeper rest) : Stacked p i beyond rest := by
  induction resemble generalizing i around beyond with
  | nil => exact ⟨h.1.keep keep, h.2.keep keep⟩
  | cons own _ ih =>
    obtain ⟨placed, beneath⟩ := h
    have keep := List.Forall₂.cons own.keeps keep
    refine ⟨placed.resembling own keep, ?_⟩
    rw [own.state, own.index]
    split
    case h_1 c waits =>
      rw [waits] at beneath
      exact ih beneath keep
    case h_2 id waits =>
      rw [waits] at beneath
      exact fun g found => ih (beneath g found) keep
    case h_3 => trivial

theorem keep (h : Stacked p i around deeper) (keep : List.Forall₂ Frame.Keeps around beyond) :
    Stacked p i beyond deeper :=
  h.resembling keep (List.forall₂_same.2 fun f _ => .refl f)

theorem reframe (h : Stacked p i around (f :: rest)) (placed : g.Placed p i beyond)
    (same : i.waiting g.state g.index = i.waiting f.state f.index)
    (keep : List.Forall₂ Frame.Keeps (f :: around) (g :: beyond)) : Stacked p i beyond (g :: rest) := by
  refine ⟨placed, ?_⟩
  have beneath := h.2
  rw [same]
  split
  case h_1 c waits =>
    rw [waits] at beneath
    exact Stacked.keep beneath keep
  case h_2 id waits =>
    rw [waits] at beneath
    exact fun g found => Stacked.keep (beneath g found) keep
  case h_3 => trivial

theorem inner {follow : Except Interrupt Variable → Exec (Option Variable)} (h : Stacked p i around (f :: rest))
    (agrees : (Move.run c follow).Agrees p i.form (i.waiting f.state f.index)) : Stacked p c (f :: around) rest := by
  obtain ⟨_, beneath⟩ := h
  rcases agrees with waits | ⟨id, g, waits, found, rfl⟩
  · rw [waits] at beneath
    exact beneath
  · rw [waits] at beneath
    exact beneath g found

theorem outer (h : f.Placed p i around)
    (waits : i.waiting f.state f.index = .child c ∨
      ∃ id g, i.waiting f.state f.index = .callee id ∧ p.function? id = some g ∧ c = g.body)
    (beneath : Stacked p c (f :: around) rest) : Stacked p i around (f :: rest) := by
  refine ⟨h, ?_⟩
  rcases waits with waits | ⟨id, g, waits, found, rfl⟩
  · rw [waits]
    exact beneath
  · rw [waits]
    intro g' hg
    cases found.symm.trans hg
    exact beneath

end Stacked

theorem Program.Contains.inner {follow : Except Interrupt Variable → Exec (Option Variable)} (h : p.Contains i)
    (agrees : (Move.run c follow).Agrees p i.form (i.waiting f.state f.index)) : p.Contains c := by
  rcases agrees with waits | ⟨id, g, _, found, rfl⟩
  · exact h.part (Form.mem_children_of_waiting waits)
  · exact contains_body found

end Tickwise
