import Tickwise.Proofs.Compile.Comparison
import Tickwise.Proofs.Machine.Invoked
import Tickwise.Proofs.Machine.Jumps
import Tickwise.Proofs.Machine.KeepingParts
import Tickwise.Proofs.Sight.Runs
set_option autoImplicit false

/-!
# Where jumps land

Every jump that an execution comes to is taken by the construct that it was compiled to leave: the turns of all
instructions between pass it on, and no function body is left by one.
-/
namespace Tickwise

open Exec Compile

/-- A turn in which an instruction executes a part of itself one level deeper. -/
structure Site where
  room : Nat
  instr : Instr
  machine : Machine

namespace Site

def turn (p : Program) (s : Site) : Result (Option Variable) :=
  Exec.turn (exec p s.room) p s.room s.instr s.machine

def breakable? (s : Site) : Option Breakable := s.instr.form.breakable?

end Site

/-- While the body of a function executes from the machine `m₀`, and not by way of a call in it, another instruction is
executed from a machine. The sites are the turns around it, innermost first. -/
inductive Nests (p : Program) (depth : Nat) (body : Instr) (m₀ : Machine) :
    List Site → Nat → Instr → Machine → Prop
  | body : Nests p depth body m₀ [] depth body m₀
  | part {sites : List Site} {room : Nat} {i c : Instr} {m inside m' : Machine}
      {follow : Except Interrupt Variable → Exec (Option Variable)}
      (around : Nests p depth body m₀ sites (room + 1) i m) (entered : m.enter? i.id = some inside)
      (passes : Passes p room i inside m') (move : i.move p m'.own = .run c follow) (part : c ∈ i.children) :
      Nests p depth body m₀ (⟨room, i, m'⟩ :: sites) room c m'

/-- A jump comes out of all turns around it up to the one of the construct that it is compiled to leave. That takes it:
`break` ends it, and `continue` goes on with the next turn of what is a loop. -/
structure Jump.Lands (p : Program) (j : Jump) (inner : List Site) (target : Site) (outer : List Site) : Prop where
  passed : ∀ s ∈ inner, (s.turn p).1 = .error j.interrupt
  unsuited : ∀ s ∈ inner, ∀ b, s.breakable? = some b → j.suits b = false
  resolved : ∃ b, target.breakable? = some b ∧ (j.isBreak = true ∨ b.isLoop = true) ∧
    j.target? ((inner ++ target :: outer).filterMap Site.breakable?) = some b
  breaks : j.isBreak = true → (target.turn p).1 = .ok (some Slot.ofVoid)
  continues : j.isBreak = false →
    (target.turn p).1 = .ok none ∧ (target.turn p).2.own.state = target.instr.form.nextTurn

variable {p : Program} {env : Environment} {bs : List Breakable} {depth room : Nat} {root i c : Instr} {j : Jump}
  {sites : List Site} {m m' m₀ : Machine}

theorem Nests.stated (h : Nests p depth root m₀ sites room i m) (hr : root.Stated env []) : ∃ bs, i.Stated env bs := by
  induction h with
  | body => exact ⟨[], hr⟩
  | part _ _ _ _ part ih =>
    obtain ⟨bs, _, _, statements, expressions⟩ := ih
    rcases Form.mem_children_iff.1 part with hc | hc
    · exact ⟨_, statements _ hc⟩
    · exact ⟨[], (expressions _ hc).stated⟩

namespace Jump.Lands

variable {inner outer : List Site} {target s : Site}

theorem here {b : Breakable} {follow : Except Interrupt Variable → Exec (Option Variable)} (framed : m'.frames ≠ [])
    (move : i.move p m'.own = .run c follow) (raised : (exec p room c m').1 = .error j.interrupt)
    (own : i.form.breakable? = some b) (suits : j.suits b = true) (taken : j.takenBy b = true)
    (goes : follow (.error j.interrupt) = if j.isBreak then finish void else goOn (setPosition i.form.nextTurn 0)) :
    j.Lands p [] ⟨room, i, m'⟩ sites := by
  have turned : Site.turn p ⟨room, i, m'⟩ =
      (if j.isBreak then finish void else goOn (setPosition i.form.nextTurn 0)) (exec p room c m').2 := by
    rw [Site.turn, turn_run move, raised, goes]
  have around : (exec p room c m').2.frames ≠ [] := (executes_exec p room c m').around.frames_ne_nil framed
  have own : Site.breakable? ⟨room, i, m'⟩ = some b := own
  refine ⟨nofun, nofun, ⟨b, own, ?_, ?_⟩, fun breaks => ?_, fun continues => ?_⟩
  · exact Bool.or_eq_true_iff.1 (Bool.and_eq_true_iff.1 taken).1
  · rw [List.nil_append, List.filterMap_cons_some own]
    exact target?_append_cons (List.forall_mem_nil _) suits
  · rw [turned, if_pos breaks]
    rfl
  · rw [turned, if_neg (Bool.eq_false_iff.1 continues)]
    refine ⟨rfl, ?_⟩
    change (Machine.modifyFrame _ _).own.state = _
    rw [Machine.own_modifyFrame around]

theorem further (h : j.Lands p inner target outer) (passed : (s.turn p).1 = .error j.interrupt)
    (unsuited : ∀ b, s.breakable? = some b → j.suits b = false) : j.Lands p (s :: inner) target outer := by
  obtain ⟨passed', unsuited', ⟨b, own, leads, resolved⟩, breaks, continues⟩ := h
  refine ⟨List.forall_mem_cons.2 ⟨passed, passed'⟩, List.forall_mem_cons.2 ⟨unsuited, unsuited'⟩,
    ⟨b, own, leads, ?_⟩, breaks, continues⟩
  rw [target?_eq_find?] at resolved ⊢
  rw [List.cons_append]
  cases around : s.breakable? with
  | none => rwa [List.filterMap_cons_none around]
  | some b' =>
    rw [List.filterMap_cons_some around, List.find?_cons_of_neg (by simp [unsuited b' around])]
    exact resolved

end Jump.Lands

theorem Nests.lands (h : Nests p depth root m₀ sites room i m) (functions : ∀ g ∈ p.functions, g.body.Stated env [])
    (hr : root.Stated env []) (raised : (exec p room i m).1 = .error j.interrupt) :
    ∃ inner target outer, sites = inner ++ target :: outer ∧ j.Lands p inner target outer := by
  have aims (room : Nat) (c : Instr) (m : Machine) (raised : (exec p room c m).1 = .error j.interrupt)
      (bs : List Breakable) (hc : c.Stated env bs) : j.Aims bs :=
    (aiming_executes functions room).aims (executes_exec p room c m) hc raised
  -- Induction from the instruction outwards: a turn that takes the jump ends it, and one that passes it on ends
  -- its own instruction with the jump, so the next turn further out meets it.
  induction h with
  | body => exact absurd (aims _ _ _ raised [] hr) Jump.not_aims_nil
  | @part sites room i c m inside m' follow around entered passes move part ih =>
    obtain ⟨bs, stated⟩ := around.stated hr
    have framed := Instr.isLeaf_of_run move
    cases stated.meets functions framed move (aims room c m' raised) with
    | takes own suits taken goes =>
      have frames : inside.frames ≠ [] := by
        obtain ⟨_, _, _, _, rfl⟩ := Machine.enter?_frames entered
        exact List.cons_ne_nil _ _
      exact ⟨[], _, sites, rfl, .here (passes.inside.own_kind frames).1 move raised own suits taken goes⟩
    | passes unsuited _ goes =>
      have turned : (turn (exec p room) p room i m').1 = .error j.interrupt := by
        rw [turn_run move, raised, goes]
        rfl
      have passed : (exec p (room + 1) i m).1 = .error j.interrupt := by
        rw [exec_of_passes framed entered passes (Prod.ext turned rfl), fst_leaveFrame]
      obtain ⟨inner, target, outer, rfl, lands⟩ := ih passed
      exact ⟨_ :: inner, target, outer, rfl, lands.further turned unsuited⟩

theorem Visits.nests (h : Visits p depth root m₀ room i m) (hr : ∃ f ∈ p.functions, f.body = root) :
    ∃ f ∈ p.functions, ∃ depth' m₁ sites, Visits p depth root m₀ depth' f.body m₁ ∧
      Nests p depth' f.body m₁ sites room i m := by
  induction h with
  | root =>
    obtain ⟨f, hf, rfl⟩ := hr
    exact ⟨f, hf, _, _, [], .root, .body⟩
  | @part room i c m inside m' follow above entered passes move ih =>
    obtain ⟨f, hf, depth', m₁, sites, visits, nests⟩ := ih
    have within := i.move_inside p m'.own
    rw [move] at within
    -- What is executed one level deeper is a part of the instruction, or the body of a function that it calls.
    rcases within with part | ⟨g, hg, rfl⟩
    · exact ⟨f, hf, depth', m₁, _, visits, .part nests entered passes move part⟩
    · exact ⟨g, hg, room, m', [], .part above entered passes move, .body⟩

theorem Nests.mem_all (h : Nests p depth root m₀ sites room i m) : i ∈ root.all ∧ ∀ s ∈ sites, s.instr ∈ root.all := by
  induction h with
  | body => exact ⟨Instr.mem_all_self _, nofun⟩
  | part _ _ _ _ part ih =>
    obtain ⟨here, around⟩ := ih
    exact ⟨Instr.mem_all_trans here (Instr.mem_all_of_part part (Instr.mem_all_self _)),
      List.forall_mem_cons.2 ⟨here, around⟩⟩

theorem exec_jump (jump : i.form.jump? = some j) : (exec p room i m).1 = .error j.interrupt := by
  have raises : i.isLeaf = true ∧ leaf i = throw j.interrupt := by
    unfold Instr.isLeaf leaf
    cases form : i.form with
    | breakTo | continueTo =>
      rw [form] at jump
      cases jump
      exact ⟨rfl, rfl⟩
    | _ => rw [form] at jump; cases jump
  rw [executes_iff.1 ((Executes.of_leaf raises.1).2 rfl), raises.2]
  obtain ⟨_ | _, _⟩ := j <;> rfl

namespace Program

/-- Jumps in the executions of a compiled program, in whatever environment. No body of a function is left by one, on
whatever machine it starts or goes on. Every jump that a tick comes to is raised in the body of some function and
lands there: at the innermost construct of its label or, without one, at the innermost loop or switch for `break` and
the innermost loop for `continue`, as the compiler resolved it. -/
theorem jumps_land {id source : String} {env : Environment} {p : Program} (compiled : ofSource id env source = .ok p)
    (e : Environment) :
    (∀ f ∈ p.functions, ∀ depth m₀ j, (exec (p.inEnvironment e) depth f.body m₀).1 ≠ .error (Jump.interrupt j)) ∧
    (∀ f ∈ p.functions, ∀ depth m₀ sites room i m j, Nests (p.inEnvironment e) depth f.body m₀ sites room i m →
      (exec (p.inEnvironment e) room i m).1 = .error (Jump.interrupt j) →
        ∃ inner target outer, sites = inner ++ target :: outer ∧ j.Lands (p.inEnvironment e) inner target outer) ∧
    ∀ x s room i m j, (p.inEnvironment e).Visits x s room i m → i.form.jump? = some j →
      (exec (p.inEnvironment e) room i m).1 = .error j.interrupt ∧
        ∃ f ∈ p.functions, ∃ depth m₀ sites, (p.inEnvironment e).Visits x s depth f.body m₀ ∧
          Nests (p.inEnvironment e) depth f.body m₀ sites room i m := by
  obtain ⟨_, functions⟩ := stated_ofTokens compiled
  refine ⟨fun f hf depth m₀ j raised => ?_, fun f hf depth m₀ sites room i m j nests raised => ?_, ?_⟩
  · have aims := (aiming_executes (p := p.inEnvironment e) functions depth).aims (executes_exec ..) (functions f hf) raised
    exact Jump.not_aims_nil aims
  · exact nests.lands functions (functions f hf) raised
  · rintro x s room i m j ⟨f, y, prepared, visits⟩ jump
    obtain ⟨g, hg, depth, m₀, sites, visits, nests⟩ := visits.nests ⟨f, List.mem_of_getElem? (prepare_right prepared).1, rfl⟩
    exact ⟨exec_jump jump, g, hg, depth, m₀, sites, ⟨f, y, prepared, visits⟩, nests⟩

/-!
A program with a switch in a loop of the same label. A handler in the switch continues the loop.
-/
namespace Relabelled

def source : String :=
  "void main() { a: while (true) a: switch (1) { case 1: try { throw 7; } catch (true) { continue; } } }"

def yes (id : NodeId) (span : Span) : Instr := .mk id span (.literal (Slot.ofBool true))

def number (id : NodeId) (span : Span) (n : Int32) : Instr := .mk id span (.literal (Slot.ofInt n))

def jump : Instr := .mk 7 ⟨86, 94⟩ (.continueTo none)

def try_ : Instr :=
  .mk 9 ⟨54, 57⟩ (.tryCatch (.mk 5 ⟨58, 59⟩ (.block [.mk 4 ⟨60, 65⟩ (.throw (number 3 ⟨66, 67⟩ 7))]))
    [⟨yes 6 ⟨78, 82⟩, .mk 8 ⟨84, 85⟩ (.block [jump])⟩])

def loop : Instr :=
  .mk 11 ⟨17, 22⟩ (.whileLoop (some "a") (yes 0 ⟨24, 28⟩)
    (.mk 10 ⟨33, 39⟩ (.switch (some "a") (number 1 ⟨41, 42⟩ 1) [⟨some 1, 0⟩] [try_])))

def body : Instr := .mk 12 ⟨12, 13⟩ (.block [loop])

def main : Function := ⟨0, "main", [], .void, body, false, ⟨5, 9⟩⟩

def program : Program := ⟨"test", [main], [], 13, .empty⟩

def begun : Execution Variable := .begin "test" 0 main []

theorem compiled : ofSource "test" .empty source = .ok program :=
  ofSource_eq 20 (by decide +kernel) rfl

def handled? : Option (Nat × Instr × Machine) :=
  visit? program [1, 2, 3, 2, 2] program.env.limits.maxFrames body (program.machine begun .empty)

theorem eq_loop_of_mem {i : Instr} {b : Breakable} (hi : i ∈ body.all) (own : i.form.breakable? = some b)
    (loops : b.isLoop = true) : i = loop := by
  simp [body, loop, try_, jump, yes, number, Instr.all_eq, Instr.children, Instr.form, Form.children] at hi
  rcases hi with rfl | rfl | rfl | rfl | rfl | rfl | rfl | rfl | rfl | rfl | rfl | rfl <;> cases own
  case inr.inl => rfl
  all_goals cases loops

theorem jumps_land_handler : ofSource "test" .empty source = .ok program ∧
    ∃ room i m, program.Visits begun .empty room i m ∧ i.form.jump? = some ⟨false, none⟩ ∧
      (exec program room i m).1 = .error (.continueTo none) ∧
      ∃ depth m₀ inner target outer, Nests program depth body m₀ (inner ++ target :: outer) room i m ∧
        Jump.Lands program ⟨false, none⟩ inner target outer ∧ target.instr = loop := by
  have code : handled?.map (·.2.1.form.jump?) = some (some ⟨false, none⟩) := by decide +kernel
  obtain ⟨⟨room, i, m⟩, visited, jump⟩ := Option.map_eq_some_iff.1 code
  have visits : program.Visits begun .empty room i m := ⟨main, begun, rfl, .of_visit? .root visited⟩
  obtain ⟨_, lands, raises⟩ := jumps_land compiled .empty
  obtain ⟨raised, f, hf, depth, m₀, sites, _, nests⟩ := raises begun .empty room i m _ visits jump
  obtain ⟨inner, target, outer, rfl, landed⟩ := lands f hf depth m₀ sites room i m _ nests raised
  cases List.mem_singleton.1 hf
  obtain ⟨b, own, leads, _⟩ := landed.resolved
  have within := nests.mem_all.2 target (List.mem_append_right _ List.mem_cons_self)
  exact ⟨compiled, room, i, m, visits, jump, raised, depth, m₀, inner, target, outer, nests, landed,
    eq_loop_of_mem within own (leads.resolve_left Bool.false_ne_true)⟩

end Relabelled

end Program
end Tickwise
