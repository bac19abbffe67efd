import Tickwise.Compile.Unit
import Tickwise.Proofs.Compile.Comparison
import Tickwise.Proofs.Sight.Runs
set_option autoImplicit false

/-!
# Accesses of declared variables

Whenever an instruction accesses a variable in a run of a compiled program, the variable has been declared in the
activation and is found, so that the access ends as the value of the variable says. The one way around a
declaration is a label of a switch that lies behind it.
-/
namespace Tickwise

open Exec

/-- A store to a variable ends with an answer and the variable as it is then, or leaves all as it is, with a fault or
because something has no text. -/
def Machine.storing (m : Machine) (span : Span) (id : VarId) (answer : Variable → Variable) :
    Option Crash → Except Fault Variable → Result Variable
  | some c, _ => (.error (.crashed c), m)
  | none, .ok u => (.ok (answer u), m.setVar id u)
  | none, .error fault => (.error (.fault ⟨fault, span⟩), m)

/-- Accesses of a variable as a whole end as its value says: no read faults but for a variable without a value, and
one that was stored to has a value and is found with it. -/
structure Machine.Provides (m : Machine) (span : Span) (place : Place Instr) (v : Variable) : Prop where
  read : readInit span (.var place.root) m =
    (if v.isInit then .ok v.toTemp else .error (.fault ⟨.uninitialized, span⟩), m)
  store : ∀ ty w, assign span place none ty w m =
    m.storing span place.root Slot.toTemp (m.heap.crash? v.ty w) (m.heap.assign v w)
  update : ∀ op ty w, assign span place (some op) ty w m = m.storing span place.root Slot.toTemp
    ((m.heap.crash? ty v.toTemp).or (if v.isInit then m.heap.crash? ty w else none))
    (do m.heap.assign v (← m.heap.binary op v.toTemp w ty))
  step : ∀ up before, step span place up before m = m.storing span place.root
    (fun u => if before then u.toTemp else v.toTemp) none (v.step up)
  stored : ∀ w u, m.heap.assign v w = .ok u → u.isInit = true ∧ (m.setVar place.root u).findVar? place.root = some u

variable {m : Machine} {place : Place Instr} {v : Variable}

theorem Heap.isUnassigned_of_convertValue {h : Heap} {ty : Ty} {w : Variable} {value : Value Ref}
    (converted : h.convertValue ty w = .ok value) : value.isUnassigned = false := by
  have mapped {α : Type} {make : α → Value Ref} (hm : ∀ a, (make a).isUnassigned = false) {r : Except Fault α}
      (hr : r.map make = .ok value) : value.isUnassigned = false := by
    cases r with
    | error => cases hr
    | ok a =>
      cases hr
      exact hm a
  cases ty with
  | void =>
    cases converted
    rfl
  | int | float | bool | string => exact mapped (fun _ => rfl) converted
  | null | array | named =>
    unfold Heap.convertValue at converted
    dsimp only at converted
    split at converted <;> cases converted <;> rfl

theorem Heap.isInit_of_assign {h : Heap} {w u : Variable} (assigned : h.assign v w = .ok u) : u.isInit = true := by
  unfold Heap.assign at assigned
  cases converted : h.convertValue v.ty w with
  | error fault =>
    rw [converted] at assigned
    cases assigned
  | ok value =>
    rw [converted] at assigned
    cases assigned
    unfold Slot.isInit
    rw [Heap.isUnassigned_of_convertValue converted]
    rfl

namespace Exec

theorem read_of_found {id : VarId} (span : Span) (found : m.findVar? id = some v) :
    read span (.var id) m = (.ok v, m) := by
  have stored : m.read? (.var id) = some v := found
  rw [read_apply, stored]
  rfl

theorem locate_of_found (span : Span) (grow : Bool) (found : m.findVar? place.root = some v)
    (whole : place.path = []) : locate span place grow m = (.ok (.var place.root), m) := by
  unfold locate
  rw [bind_apply, read_of_found span found, whole]
  rfl

theorem checkHeap_apply {α : Type} (span : Span) (f : Heap → Except Fault α) (m : Machine) :
    checkHeap span f m = check span (f m.heap) m := rfl

theorem store_of_found {id : VarId} (span : Span) (found : m.findVar? id = some v) (w : Variable) :
    store span (.var id) w m = m.storing span id Slot.toTemp (m.heap.crash? v.ty w) (m.heap.assign v w) := by
  unfold store
  rw [bind_apply, read_of_found span found]
  dsimp only
  rw [bind_apply, checkCrash_apply, storeCrash?]
  cases m.heap.crash? v.ty w with
  | some c => rfl
  | none =>
    dsimp only
    rw [checkHeap_apply]
    cases m.heap.assign v w <;> rfl

end Exec

theorem Machine.provides_of_found (span : Span) (found : m.findVar? place.root = some v) (whole : place.path = []) :
    m.Provides span place v where
  read := by
    unfold readInit
    rw [bind_apply, read_of_found span found]
    dsimp only
    split <;> rfl
  store ty w := by
    unfold assign
    rw [bind_apply, locate_of_found span _ found whole]
    exact store_of_found span found w
  update op ty w := by
    unfold assign
    rw [bind_apply, locate_of_found span _ found whole]
    dsimp only
    rw [bind_apply, read_of_found span found]
    dsimp only
    rw [bind_apply, operate, checkCrash_apply, show v.toTemp.isInit = v.isInit from rfl]
    cases (m.heap.crash? ty v.toTemp).or (if v.isInit then m.heap.crash? ty w else none) with
    | some c => rfl
    | none =>
      dsimp only
      rw [checkHeap_apply]
      cases computed : m.heap.binary op v.toTemp w ty with
      | error fault => rfl
      | ok new =>
        have stored := store_of_found span found new
        rwa [Heap.crash?_of_scalar (Heap.scalar_of_binary computed)] at stored
  step up before := by
    unfold Exec.step
    rw [bind_apply, locate_of_found span _ found whole]
    dsimp only
    rw [bind_apply, read_of_found span found]
    dsimp only
    cases v.step up <;> rfl
  stored w u assigned := by
    have same : u.id = place.root := (Heap.id_of_assign assigned).trans (Frame.id_of_findVar? found)
    refine ⟨Heap.isInit_of_assign assigned, ?_⟩
    unfold findVar? at found ⊢
    rw [allFrames_setVar]
    exact Frame.findVar?_setVar same found

def onValue? (p : Program) (turns room : Nat) (i : Instr) (m : Machine) : Option Machine :=
  ((m.enter? i.id).bind (pass? p room i turns)).bind fun m' =>
    match i.move p m'.own with
    | .run c _ =>
      match exec p room c m' with
      | (.ok _, m'') => some m''
      | _ => none
    | _ => none

theorem Acts.of_onValue? {p : Program} {depth room turns : Nat} {root i : Instr} {m m' m₀ : Machine}
    (visits : Visits p depth root m₀ (room + 1) i m) (h : onValue? p turns room i m = some m') :
    Acts p depth root m₀ i m' := by
  obtain ⟨m₁, passed, h⟩ := Option.bind_eq_some_iff.1 h
  obtain ⟨inside, entered, passed⟩ := Option.bind_eq_some_iff.1 passed
  split at h
  case h_1 c follow move =>
    split at h
    case h_1 v m₂ ended =>
      cases h
      exact .value visits entered (.of_pass? passed) move ended
    case h_2 => cases h
  case h_2 => cases h

theorem Machine.Sights.found {p : Program} {i : Instr} (h : m.Sights p i) (accesses : i.place? = some place) :
    p.Bypasses i place.root ∨ ∃ v, m.findVar? place.root = some v := by
  refine (h.sight.root accesses).imp_right fun declared => ?_
  unfold Machine.findVar? allFrames
  rw [h.rest]
  exact declared.found

namespace Program

/-- Whenever an instruction acts on a place, in any tick of any run of a compiled program, the variable that the
place is rooted at has been declared in the activation and is found, unless a label of a switch has bypassed its
declaration. An access of the variable as a whole then ends as its value says. -/
theorem declared_before_accessed {id source : String} {env e : Environment} {p : Program} {x : Execution Variable}
    {s : Session} {i : Instr} (compiled : Program.ofSource id env source = .ok p) (arrives : p.Arrives x)
    (acts : (p.inEnvironment e).Acts x s i m) (accesses : i.place? = some place) :
    p.Bypasses i place.root ∨ ∃ v, m.findVar? place.root = some v ∧
      (place.path = [] → m.Provides i.span place v) := by
  have sights := acts.sights (sighted_ofTokens compiled) arrives accesses
  refine (sights.found accesses).imp_right fun ⟨v, found⟩ => ?_
  exact ⟨v, found, Machine.provides_of_found i.span found⟩

/-!
A program with a switch that jumps to its second label. Behind the label it stores to a variable that is declared
in front of the switch, and then to one that is declared in front of the label.
-/
namespace Bypassed

def source : String :=
  "int main() { int b; switch (2) { case 1: int a = 1; case 2: b = 3; a = b; return a; } return 0; }"

def number (id : NodeId) (span : Span) (n : Int32) : Instr := .mk id span (.literal (Slot.ofInt n))

def a : Place Instr := ⟨2, "a", [], .int⟩

def b : Place Instr := ⟨1, "b", [], .int⟩

def outer : Instr := .mk 10 ⟨62, 63⟩ (.store b none .int (number 9 ⟨64, 65⟩ 3))

def inner : Instr := .mk 13 ⟨69, 70⟩ (.store a none .int (.mk 12 ⟨71, 72⟩ (.load b)))

def statements : List Instr := [
  .mk 6 ⟨41, 44⟩ (.declList [.mk 5 ⟨45, 46⟩ (.declare 2 "a" .int [] (some (number 4 ⟨49, 50⟩ 1)))]),
  outer,
  inner,
  .mk 15 ⟨74, 80⟩ (.ret (some (.mk 14 ⟨81, 82⟩ (.load a))))]

def switch : Instr :=
  .mk 16 ⟨20, 26⟩ (.switch none (number 2 ⟨28, 29⟩ 2) [⟨some 1, 0⟩, ⟨some 2, 1⟩] statements)

def body : Instr :=
  .mk 19 ⟨11, 12⟩ (.block [
    .mk 1 ⟨13, 16⟩ (.declList [.mk 0 ⟨17, 18⟩ (.declare 1 "b" .int [] none)]),
    switch,
    .mk 18 ⟨86, 92⟩ (.ret (some (number 17 ⟨93, 94⟩ 0)))])

def main : Function := ⟨0, "main", [], .int, body, false, ⟨4, 8⟩⟩

def program : Program := ⟨"test", [main], [], 20, .empty⟩

def begun : Execution Variable := .begin "test" 0 main []

theorem compiled : ofSource "test" .empty source = .ok program :=
  ofSource_eq 20 (by decide +kernel) rfl

def stores? (turns : Nat) : Option (Instr × Machine) :=
  match visit? program [3, turns] program.env.limits.maxFrames body (program.machine begun .empty) with
  | some (room + 1, i, m) => (onValue? program 1 room i m).map fun m' => (i, m')
  | _ => none

theorem acts_of_stores? {turns : Nat} {i : Instr} {m : Machine} (h : stores? turns = some (i, m)) :
    program.Acts begun .empty i m := by
  unfold stores? at h
  split at h
  case h_1 room j m₁ visited =>
    obtain ⟨m', valued, same⟩ := Option.map_eq_some_iff.1 h
    cases same
    exact ⟨main, begun, rfl, .of_onValue? (.of_visit? .root visited) valued⟩
  case h_2 => cases h

/-- The second store does not find its variable, which the compiler accepted, and faults. -/
theorem store_bypassed : ofSource "test" .empty source = .ok program ∧
    program.start? "main" [] .empty = some begun ∧
    (∃ m, program.Acts begun .empty inner m ∧ m.findVar? a.root = none) ∧
    (program.tick begun .empty).tick = .faulted ⟨.uninitialized, inner.span⟩ := by
  have code : (stores? 5).map Prod.fst = some inner := Instr.eq_some_of_same 20 (by decide +kernel)
  have missing : (stores? 5).map (·.2.findVar? a.root) = some none := by decide +kernel
  obtain ⟨⟨i, m⟩, last, rfl⟩ := Option.map_eq_some_iff.1 code
  rw [last] at missing
  exact ⟨compiled, rfl, ⟨m, acts_of_stores? last, Option.some.inj missing⟩, by decide +kernel⟩

theorem not_bypasses_outer : ¬ program.Bypasses outer b.root := by
  have parts : ∀ s ∈ body.all, (∃ label value cases body, s.form = .switch label value cases body) → s = switch := by
    simp [body, switch, statements, outer, inner, number, a, b, Instr.all_eq, Instr.children, Instr.form,
      Form.children, Place.indices]
  rintro ⟨s, ⟨f, hf, hs⟩, bypasses⟩
  cases List.mem_singleton.1 hf
  unfold Instr.Bypasses at bypasses
  split at bypasses
  case h_1 form =>
    cases parts s hs ⟨_, _, _, _, form⟩
    cases form
    obtain ⟨c, known, declared, _⟩ := bypasses
    rcases List.mem_pair.1 known with rfl | rfl
    · cases declared
    · cases List.mem_singleton.1 declared
  case h_2 => exact bypasses

theorem declared_before_accessed_outer : program.Arrives begun ∧
    ∃ m v, program.Acts begun .empty outer m ∧ m.findVar? b.root = some v ∧ m.Provides outer.span b v := by
  have code : (stores? 3).map Prod.fst = some outer := Instr.eq_some_of_same 20 (by decide +kernel)
  obtain ⟨⟨i, m⟩, last, rfl⟩ := Option.map_eq_some_iff.1 code
  have start : program.start? "main" [] .empty = some begun := rfl
  have arrives : program.Arrives begun := .start (.byName start)
  have acts := acts_of_stores? last
  have declared := declared_before_accessed (e := .empty) compiled arrives acts rfl
  rcases declared with bypassed | ⟨v, found, provides⟩
  · exact absurd bypassed not_bypasses_outer
  · exact ⟨arrives, m, v, acts, found, provides rfl⟩

end Bypassed

end Program
end Tickwise
