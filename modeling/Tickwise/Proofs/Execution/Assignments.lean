import Tickwise.Proofs.Compile.Comparison
import Tickwise.Proofs.Execution.Growth
import Tickwise.Proofs.Sight.Accesses
import Tickwise.Proofs.Typing.Keeping
import Tickwise.Proofs.Typing.Soundness
set_option autoImplicit false

/-!
# Assignments that fault

An assignment that faults when it has its indexes and its value leaves all variables and all storage as they are.
What may lengthen an array is the last that can fault: where storage is typed the value can be converted.
-/
namespace Tickwise

open Exec

namespace Exec

variable {α β : Type}

/-- The interrupt is a fault at a place in the source, if it is one that leaves the process alive. -/
def Raised (span : Span) (e : Interrupt) : Prop :=
  (∃ fault, e = .fault ⟨fault, span⟩) ∨ ∃ c, e = .crashed c

/-- A computation that changes nothing and faults at a place in the source if at all. -/
def Looks (span : Span) (c : Exec α) : Prop :=
  ∀ m, (∃ a, c m = (.ok a, m)) ∨ ∃ e, Raised span e ∧ c m = (.error e, m)

/-- From a machine a computation succeeds, or it faults and leaves the machine as it is. -/
def Atomic (span : Span) (c : Exec α) (m : Machine) : Prop :=
  (∃ a m', c m = (.ok a, m')) ∨ ∃ e, Raised span e ∧ c m = (.error e, m)

variable {span : Span} {c : Exec α} {f : α → Exec β} {m : Machine}

namespace Looks

theorem eq_of_ok {a : α} {m' : Machine} (h : Looks span c) (ok : c m = (.ok a, m')) : m' = m := by
  rcases h m with ⟨_, same⟩ | ⟨_, _, failed⟩
  · cases ok.symm.trans same
    rfl
  · cases ok.symm.trans failed

theorem pure (a : α) : Looks span (pure a) := fun _ => .inl ⟨a, rfl⟩

theorem get : Looks span (get : Exec Machine) := fun m => .inl ⟨m, rfl⟩

theorem faultAt (fault : Fault) : Looks span (faultAt span fault : Exec α) := fun _ => .inr ⟨_, .inl ⟨fault, rfl⟩, rfl⟩

theorem crash (c : Crash) : Looks span (crash c : Exec α) := fun _ => .inr ⟨_, .inr ⟨c, rfl⟩, rfl⟩

theorem check (r : Except Fault α) : Looks span (check span r) := by
  cases r with
  | ok a => exact .pure a
  | error fault => exact .faultAt fault

theorem checkHeap (g : Heap → Except Fault α) : Looks span (checkHeap span g) := fun m => check (g m.heap) m

theorem checkCrash (crash? : Heap → Option Crash) (g : Heap → Except Fault α) :
    Looks span (checkCrash span crash? g) := by
  intro m
  rw [checkCrash_apply]
  cases crash? m.heap with
  | some c => exact crash c m
  | none => exact checkHeap g m

theorem ite {q : Prop} [Decidable q] {d : Exec α} (hc : Looks span c) (hd : Looks span d) :
    Looks span (if q then c else d) := by
  split
  · exact hc
  · exact hd

theorem bind (hc : Looks span c) (hf : ∀ a, Looks span (f a)) : Looks span (c >>= f) := by
  intro m
  rw [bind_apply]
  rcases hc m with ⟨a, ok⟩ | ⟨e, raised, failed⟩
  · rw [ok]
    exact hf a m
  · rw [failed]
    exact .inr ⟨e, raised, rfl⟩

theorem read (storage : Storage) : Looks span (read span storage) := by
  refine .bind .get fun m => ?_
  split
  · exact .pure _
  · cases storage with
    | var id => exact .faultAt _
    | cell ref position => exact .crash _

theorem operands : Looks span operands := .bind .get fun _ => .pure _

theorem element (container : Variable) (index : Int32) (elem : Ty) :
    Looks span (element span container index elem false) :=
  .bind (.check _) fun _ => .ite (.faultAt _) (.bind .get fun _ => .ite (.pure _) (.faultAt _))

theorem follow {ι : Type} (path : List (Access ι)) (indices : List Variable) (storage : Storage) :
    Looks span (follow span false path indices storage) := by
  induction path generalizing indices storage with
  | nil => exact .pure _
  | cons access path ih =>
    cases access with
    | field position => exact .bind (.read _) fun _ => .bind (.check _) fun _ => ih _ _
    | index at_ elem =>
      exact .bind (.read _) fun _ => .bind (.check _) fun _ => .bind (.element _ _ _) fun _ => ih _ _

theorem locate (place : Place Instr) : Looks span (locate span place false) :=
  .bind (.read _) fun _ => .bind .operands fun _ => .follow _ _ _

end Looks

namespace Atomic

theorem of_looks (h : Looks span c) : Atomic span c m := (h m).imp_left fun ⟨a, ok⟩ => ⟨a, m, ok⟩

theorem bind (hc : Looks span c) (hf : ∀ a, Atomic span (f a) m) : Atomic span (c >>= f) m := by
  unfold Atomic
  rw [bind_apply]
  rcases hc m with ⟨a, ok⟩ | ⟨e, raised, failed⟩
  · rw [ok]
    exact hf a
  · rw [failed]
    exact .inr ⟨e, raised, rfl⟩

theorem andThen (hc : Atomic span c m) (hf : ∀ a m', c m = (.ok a, m') → ∃ b m'', f a m' = (.ok b, m'')) :
    Atomic span (c >>= f) m := by
  unfold Atomic
  rw [bind_apply]
  rcases hc with ⟨a, m', ok⟩ | ⟨e, raised, failed⟩
  · rw [ok]
    exact .inl (hf a m' ok)
  · rw [failed]
    exact .inr ⟨e, raised, rfl⟩

theorem ite {q : Prop} [Decidable q] {d : Exec α} (hc : Atomic span c m) (hd : Atomic span d m) :
    Atomic span (if q then c else d) m := by
  split
  · exact hc
  · exact hd

theorem finish {c : Exec Variable} (h : Atomic span c m) : Atomic span (finish c) m :=
  h.andThen fun v m' _ => ⟨some v, m', rfl⟩

theorem extendArray (ref : Ref) (position : Nat) (elem : Ty) :
    Atomic span (extendArray span ref position elem) m :=
  .ite (.of_looks (.faultAt _)) (.bind (.checkHeap _) fun _ => .inl ⟨_, _, rfl⟩)

theorem element (container : Variable) (index : Int32) (elem : Ty) (grow : Bool) :
    Atomic span (element span container index elem grow) m := by
  refine .bind (.check _) fun ref => .ite (.of_looks (.faultAt _)) (.bind .get fun _ => .ite (.of_looks (.pure _)) ?_)
  exact .ite (.andThen (.extendArray ..) fun _ m' _ => ⟨_, m', rfl⟩) (.of_looks (.faultAt _))

theorem follow {ι : Type} (grow : Bool) (path : List (Access ι)) (indices : List Variable) (storage : Storage) :
    Atomic span (follow span grow path indices storage) m := by
  induction path generalizing indices storage with
  | nil => exact .of_looks (.pure _)
  | cons access path ih =>
    cases access with
    | field position => exact .bind (.read _) fun _ => .bind (.check _) fun _ => ih _ _
    | index at_ elem =>
      refine .bind (.read _) fun _ => .bind (.check _) fun _ => ?_
      cases path with
      | nil => exact .andThen (.element ..) fun _ m' _ => ⟨_, m', rfl⟩
      | cons next path =>
        rw [List.isEmpty_cons, Bool.and_false]
        exact .bind (.element _ _ _) fun _ => ih _ _

theorem locate (place : Place Instr) (grow : Bool) : Atomic span (locate span place grow) m :=
  .bind (.read _) fun _ => .bind .operands fun _ => .follow ..

theorem store (storage : Storage) (v : Variable) : Atomic span (store span storage v) m :=
  .bind (.read _) fun _ => .bind (.checkCrash _ _) fun _ => .inl ⟨_, _, rfl⟩

theorem update (place : Place Instr) (op : BinaryOp) (ty : Ty) (v : Variable) :
    Atomic span (assign span place (some op) ty v) m :=
  .bind (.locate place) fun _ => .bind (.read _) fun _ => .bind (.checkCrash _ _) fun _ => .store ..

theorem step (place : Place Instr) (up before : Bool) : Atomic span (step span place up before) m :=
  .bind (.locate place) fun _ => .bind (.read _) fun _ => .bind (.check _) fun _ => .inl ⟨_, _, rfl⟩

end Atomic

theorem cell_of_element {container : Variable} {index : Int32} {elem : Ty} {grow : Bool} {storage : Storage}
    {m' : Machine} (h : element span container index elem grow m = (.ok storage, m')) : ∃ r k, storage = .cell r k := by
  obtain ⟨r, m₁, _, h₁⟩ := ok_of_bind h
  split at h₁
  · cases h₁
  · obtain ⟨_, m₂, _, h₂⟩ := ok_of_bind h₁
    split at h₂
    · cases h₂
      exact ⟨_, _, rfl⟩
    · split at h₂
      · obtain ⟨_, m₃, _, h₃⟩ := ok_of_bind h₂
        cases h₃
        exact ⟨_, _, rfl⟩
      · cases h₂

/-- Only a path without accesses leads to a variable. -/
theorem var_of_follow {ι : Type} {grow : Bool} {path : List (Access ι)} {indices : List Variable} {storage : Storage}
    {id : VarId} {m' : Machine} (h : follow span grow path indices storage m = (.ok (.var id), m')) :
    storage = .var id ∧ m' = m := by
  induction path generalizing indices storage m with
  | nil =>
    cases h
    exact ⟨rfl, rfl⟩
  | cons access path ih =>
    cases access with
    | field position =>
      obtain ⟨_, m₁, _, h₁⟩ := ok_of_bind h
      obtain ⟨_, m₂, _, h₂⟩ := ok_of_bind h₁
      cases (ih h₂).1
    | index at_ elem =>
      obtain ⟨_, m₁, _, h₁⟩ := ok_of_bind h
      obtain ⟨_, m₂, _, h₂⟩ := ok_of_bind h₁
      obtain ⟨_, m₃, reached, h₃⟩ := ok_of_bind h₂
      obtain ⟨r, k, rfl⟩ := cell_of_element reached
      cases (ih h₃).1

end Exec

variable {D : Declarations} {S : MarkedShapes} {m m' : Machine} {span : Span} {place : Place Instr} {storage : Storage}
  {v : Variable} {ty : Ty}

theorem MarkedShapes.Owns.readable {grow : Bool} (owned : S.Owns D m'.heap ty storage)
    (located : locate span place grow m = (.ok storage, m')) : ∃ w, m'.read? storage = some w := by
  cases storage with
  | var id =>
    obtain ⟨w, m₁, read, h₁⟩ := ok_of_bind located
    obtain ⟨_, m₂, asked, h₂⟩ := ok_of_bind h₁
    cases asked
    obtain ⟨same, rfl⟩ := var_of_follow h₂
    cases same
    cases (Looks.read _).eq_of_ok read
    exact ⟨w, ok_of_read read⟩
  | cell r k => exact ⟨_, Array.getElem?_eq_getElem owned.1⟩

theorem Heap.ok_of_has {h : Heap} {dst : Variable} (slot : S.HasSlot ty dst) (has : S.Has ty v.value) :
    ∃ u, h.assign dst v = .ok u := by
  obtain ⟨value, converts⟩ : ∃ value, h.convertValue ty v = .ok value := by
    cases ty with
    | void => exact ⟨_, rfl⟩
    | int | float | bool | string =>
      obtain ⟨_, value⟩ := has
      simp [convertValue, Slot.toInt, Slot.toFloat, Slot.toBool, toText, value, Except.map]
    | null =>
      have value : v.value = .null := has
      simp [convertValue, value]
    | array elem =>
      rcases has with value | ⟨_, value, _⟩ <;> simp [convertValue, value]
    | named c =>
      rcases has with value | ⟨_, _, value, _⟩ <;> simp [convertValue, value]
  unfold assign
  rw [Shapes.convertValue_of_marks (S.marking.marks slot.1), converts]
  exact ⟨_, rfl⟩

theorem Machine.Typed.atomic_assign (hm : m.Typed D S) (names : D.Names place) (has : S.Has place.ty v.value) :
    Atomic span (assign span place none ty v) m := by
  have sound : Sound D .void (fun S' m' storage => S'.Owns D m'.heap place.ty storage) (fun _ _ => False) S
      (locate span place true m) := .locate hm names
  refine .andThen (.locate place true) fun storage m' located => ?_
  change locate span place true m = _ at located
  rw [located] at sound
  obtain ⟨S', le, typed, owned⟩ := sound
  obtain ⟨w, there⟩ := owned.readable located
  have slot := (owned.read? typed there).1
  obtain ⟨u, assigned⟩ := Heap.ok_of_has (h := m'.heap) slot (has.mono le.toLe)
  change ∃ b m'', store span storage v m' = (.ok b, m'')
  unfold store
  rw [bind_apply, read_of_some there]
  dsimp only
  rw [bind_apply, checkCrash_apply, MarkedShapes.storeCrash?_eq_none slot.1 (.inl (has.mono le.toLe))]
  dsimp only
  rw [checkHeap_apply, assigned]
  exact ⟨_, _, rfl⟩

theorem Machine.Typed.finish_assign_ne_crashed (hm : m.Typed D S) {ret src : Ty} {op : Option BinaryOp} {value : Instr}
    (checks : D.Checks ret (.store place op ty value)) (has : S.Has src v.value)
    (fits : op = none → S.Has place.ty v.value) (c : Crash) :
    (finish (assign span place op ty v) m).1 ≠ .error (.crashed c) := by
  have names : D.Names place ∧ (op ≠ none → place.ty.isReference = false) := by
    cases op with
    | none => exact ⟨checks.1, nofun⟩
    | some op => exact ⟨checks.1, fun _ => checks.2⟩
  have sound : Sound D.alone .void (fun S' _ w => S'.HasTemp place.ty w) (fun _ _ => False) S
      (assign span place op ty v m) := .assign hm.alone names.1.alone has fits names.2
  have finished : Sound D.alone .void (fun _ _ _ => True) (fun _ _ => False) S
      (finish (assign span place op ty v) m) := sound.finish fun _ _ _ _ => trivial
  exact finished.ne_crashed c

namespace Instr

variable {p : Program} {i : Instr} {f : Frame Variable}

theorem move_store {op : Option BinaryOp} {value : Instr} (form : i.form = .store place op ty value)
    (behind : f.state ≠ 0) : i.move p f = .eval value fun v => Exec.finish (assign i.span place op ty v) := by
  unfold move
  rw [form]
  change Move.ofStore _ _ _ _ _ _ = _
  unfold Move.ofStore
  rw [if_neg behind]

theorem move_step {up before : Bool} (form : i.form = .step place up before)
    (gathered : itemAt? place.indices f.index = none) :
    i.move p f = .act (Exec.finish (Exec.step i.span place up before)) := by
  unfold move
  rw [form]
  change Move.collect _ _ _ = _
  unfold Move.collect
  rw [gathered]

end Instr

namespace Program

variable {p : Program} {x : Execution Variable} {s : Session} {room : Nat} {i : Instr} {before : Machine}
  {r : Result (Option Variable)}

/-- In a tick an assignment or a step of a number, begun on one machine, comes to another one on which it has the
values of its parts, and its last turn ends in a way. -/
inductive Assigns (p : Program) (x : Execution Variable) (s : Session) (room : Nat) (i : Instr) (before m : Machine)
    (r : Result (Option Variable)) : Prop
  | store {inside m₀ : Machine} {place : Place Instr} {op : Option BinaryOp} {ty : Ty} {value : Instr} {v : Variable}
      (visits : p.Visits x s (room + 1) i before) (entered : before.enter? i.id = some inside)
      (passes : Tickwise.Passes p room i inside m₀) (form : i.form = .store place op ty value)
      (behind : m₀.own.state ≠ 0) (ended : exec p room value m₀ = (.ok v, m))
      (last : turn (exec p room) p room i m₀ = r)
  | step {inside : Machine} {place : Place Instr} {up prior : Bool} (visits : p.Visits x s (room + 1) i before)
      (entered : before.enter? i.id = some inside) (passes : Tickwise.Passes p room i inside m)
      (form : i.form = .step place up prior) (gathered : itemAt? place.indices m.own.index = none)
      (last : turn (exec p room) p room i m = r)

namespace Assigns

theorem amid {D : Declarations} (hp : p.Keeps D .loose) (runs : p.Runs x s) {budget : Nat} {inside m₀ : Machine}
    (visits : (p.withSteps budget).Visits x s (room + 1) i before) (entered : before.enter? i.id = some inside)
    (passes : Tickwise.Passes (p.withSteps budget) room i inside m₀) :
    ∃ ret S, (p.withSteps budget).Keeps D S.marking ∧ m₀.Amid (p.withSteps budget) D ret i S := by
  obtain ⟨f, y, prepared, visits⟩ := visits
  obtain ⟨S, hp, start⟩ := runs.before hp prepared
  obtain ⟨ret, S₁, hp, begun⟩ := visits.before (hp.withSteps budget) start
  obtain ⟨S₂, le, amid⟩ := passes.amid hp (begun.enter entered)
  exact ⟨ret, S₂, hp.mono le, amid⟩

theorem last_atomic {D : Declarations} (hp : p.Keeps D .loose) (runs : p.Runs x s) {budget : Nat}
    (assigns : (p.withSteps budget).Assigns x s room i before m r) :
    ∃ action, r = action m ∧ Atomic i.span action m ∧ ∀ c, r.1 ≠ .error (.crashed c) := by
  cases assigns with
  | @store inside m₀ place op ty value v visits entered passes form behind ended last =>
    have move := Instr.move_store form behind (p := p.withSteps budget)
    have eq : r = Exec.finish (assign i.span place op ty v) m := by rw [← last, turn_run move, ended]
    obtain ⟨ret, S, holds, amid⟩ := amid hp runs visits entered passes
    obtain ⟨S', typed, temp⟩ := amid.yields holds move (executes_iff.2 ended)
    have checks := amid.instr.checks
    rw [form] at checks
    refine ⟨_, eq, .finish ?_, eq ▸ ?_⟩
    · cases op with
      | some op => exact .update ..
      | none => exact typed.atomic_assign checks.1 (temp.2.fits checks.2)
    · refine typed.finish_assign_ne_crashed checks temp.2 fun plain => ?_
      subst plain
      exact temp.2.fits checks.2
  | @step inside place up prior visits entered passes form gathered last =>
    have move := Instr.move_step form gathered (p := p.withSteps budget)
    have eq : r = Exec.finish (Exec.step i.span place up prior) m := by rw [← last, turn_apply, move]
    obtain ⟨ret, S, holds, amid⟩ := amid hp runs visits entered passes
    have checks := amid.instr.checks
    rw [form] at checks
    have sound : Sound D.alone .void (fun S' _ w => S'.HasTemp place.ty w) (fun _ _ => False) S
        (Exec.step i.span place up prior m) := .step amid.typed.alone checks.1.alone checks.2
    have finished : Sound D.alone .void (fun _ _ _ => True) (fun _ _ => False) S
        (Exec.finish (Exec.step i.span place up prior) m) := sound.finish fun _ _ _ _ => trivial
    exact ⟨_, eq, .finish (.step ..), eq ▸ finished.ne_crashed⟩

theorem exec_eq {e : Interrupt} (assigns : p.Assigns x s room i before m (.error e, m')) :
    exec p (room + 1) i before = leaveFrame (.error e, m') := by
  obtain ⟨n, span, code⟩ := i
  cases assigns with
  | store _ entered passes form _ _ last =>
    cases form
    exact exec_of_passes rfl entered passes last
  | step _ entered passes form _ last =>
    cases form
    exact exec_of_passes rfl entered passes last

end Assigns

/-- In a run of a compiled program whose natives keep to their types, an assignment or a step that faults when it has
the values of its parts leaves all variables, arrays and objects as they are then. -/
theorem assigns_atomic {id source : String} {env : Environment} (compiled : ofSource id env source = .ok p)
    (natives : ∀ f ∈ p.env.natives.natives, f.KeepsTypes p.class?) (runs : p.Runs x s) {budget : Nat} {e : Interrupt}
    (assigns : (p.withSteps budget).Assigns x s room i before m (.error e, m')) :
    m' = m ∧ exec (p.withSteps budget) (room + 1) i before = (.error e, m.leave) ∧
      ∃ fault, e = .fault ⟨fault, i.span⟩ := by
  obtain ⟨D, hp⟩ := keeps_ofTokens compiled fun f hf => (natives f hf).loose
  obtain ⟨action, ended, ⟨_, _, done⟩ | ⟨_, ⟨fault, rfl⟩ | ⟨c, rfl⟩, failed⟩, alive⟩ := assigns.last_atomic hp runs
  · cases ended.trans done
  · cases ended.trans failed
    exact ⟨rfl, assigns.exec_eq, fault, rfl⟩
  · exact absurd (congrArg Prod.fst (ended.trans failed)) (alive c)

/-- An assignment that a tick comes to after a number of turns, and faults. -/
theorem assigns_of_stores? {turns : List Nat} {own : Nat} {m₀ : Machine} {ty : Ty} {value : Instr} {e : Interrupt}
    (found : p.stores? x s turns own = some (room, i, m₀, v, m)) (form : i.form = .store place none ty value)
    (ended : (turn (exec p room) p room i m₀).1 = .error e) :
    ∃ before, p.Assigns x s room i before m (.error e, (turn (exec p room) p room i m₀).2) := by
  obtain ⟨visits, entered, passes, form, behind, value⟩ := Stores.of_stores? found form
  exact ⟨_, .store visits entered passes form behind value (Prod.ext ended rfl)⟩

/-!
A program that stores to an element of an element that is null. Nothing is lengthened.
-/
namespace Nested

def source : String := "int main() { int a[][]; a[0] = null; a[0][3] = 7; return 0; }"

def number (id : NodeId) (span : Span) (n : Int32) : Instr := .mk id span (.literal (Slot.ofInt n))

def row : Place Instr := ⟨1, "a", [.index (number 3 ⟨26, 27⟩ 0) (.array .int)], .array .int⟩

def entry : Place Instr :=
  ⟨1, "a", [.index (number 8 ⟨39, 40⟩ 0) (.array .int), .index (number 10 ⟨42, 43⟩ 3) .int], .int⟩

def storing : Instr := .mk 13 ⟨45, 46⟩ (.store entry none .int (number 12 ⟨47, 48⟩ 7))

def body : Instr :=
  .mk 16 ⟨11, 12⟩ (.block [
    .mk 1 ⟨13, 16⟩ (.declList [.mk 0 ⟨17, 18⟩ (.declare 1 "a" (.array (.array .int)) [] none)]),
    .mk 6 ⟨29, 30⟩ (.store row none (.array .int) (.mk 5 ⟨31, 35⟩ (.literal (Slot.ofNull .null)))),
    storing,
    .mk 15 ⟨50, 56⟩ (.ret (some (number 14 ⟨57, 58⟩ 0)))])

def main : Function := ⟨0, "main", [], .int, body, false, ⟨4, 8⟩⟩

def program : Program := ⟨"nested", [main], [], 17, .empty⟩

def begun : Execution Variable := .begin "nested" 0 main []

theorem compiled : ofSource "nested" .empty source = .ok program :=
  ofSource_eq 20 (by decide +kernel) rfl

def unhurried : Program := program.withSteps 100

/-- The store, and the machines on which it waits for its value and has it. -/
def stored? : Option (Nat × Instr × Machine × Variable × Machine) := unhurried.stores? begun .empty [5] 3

theorem assigns_atomic_nested : ofSource "nested" .empty source = .ok program ∧
    (∀ f ∈ program.env.natives.natives, f.KeepsTypes program.class?) ∧ program.Runs begun .empty ∧
    ∃ room before m m',
      unhurried.Assigns begun .empty room storing before m (.error (.fault ⟨.nullReference, ⟨45, 46⟩⟩), m') ∧
      m' = m ∧ exec unhurried (room + 1) storing before = (.error (.fault ⟨.nullReference, ⟨45, 46⟩⟩), m.leave) := by
  have natives : ∀ f ∈ program.env.natives.natives, f.KeepsTypes program.class? :=
    fun _ hf => absurd hf List.not_mem_nil
  have accepts : program.Accepts main [] .empty := ⟨⟨_, fun _ => none⟩, rfl, ⟨nofun, nofun⟩, .nil⟩
  have runs : program.Runs begun .empty := .start ⟨0, main, [], rfl, accepts, rfl⟩
  have code : stored?.map (·.2.1) = some storing := Instr.eq_some_of_same 20 (by decide +kernel)
  have ended : stored?.map (fun g => (turn (exec unhurried g.1) unhurried g.1 g.2.1 g.2.2.1).1) =
      some (.error (.fault ⟨.nullReference, ⟨45, 46⟩⟩)) := by decide +kernel
  obtain ⟨⟨room, i, m₀, v, m⟩, found, rfl⟩ := Option.map_eq_some_iff.1 code
  simp only [found, Option.map_some, Option.some.injEq] at ended
  obtain ⟨before, assigns⟩ := assigns_of_stores? found (show storing.form = .store entry _ _ _ from rfl) ended
  obtain ⟨same, executed, _⟩ := assigns_atomic compiled natives runs assigns
  exact ⟨compiled, natives, runs, room, before, m, _, assigns, same, executed⟩

end Nested

/-!
A program that hands its array of arrays to a native, which answers it as an array of floats, and then puts null there.
The store of what should be a float lengthens an array and then faults.
-/
namespace Retyped

def source : String :=
  "int main() { int a[][]; float b[] = same(a); a[0] = null; float c[]; c[5] = b[0]; return 0; }"

def number (id : NodeId) (span : Span) (n : Int32) : Instr := .mk id span (.literal (Slot.ofInt n))

def row : Place Instr := ⟨1, "a", [.index (number 7 ⟨47, 48⟩ 0) (.array .int)], .array .int⟩

def operand : Place Instr := ⟨2, "b", [.index (number 17 ⟨78, 79⟩ 0) .float], .float⟩

def target : Place Instr := ⟨3, "c", [.index (number 14 ⟨71, 72⟩ 5) .float], .float⟩

def storing : Instr := .mk 19 ⟨74, 75⟩ (.store target none .float (.mk 18 ⟨76, 77⟩ (.load operand)))

def body : Instr :=
  .mk 22 ⟨11, 12⟩ (.block [
    .mk 1 ⟨13, 16⟩ (.declList [.mk 0 ⟨17, 18⟩ (.declare 1 "a" (.array (.array .int)) [] none)]),
    .mk 5 ⟨24, 29⟩ (.declList [.mk 4 ⟨30, 31⟩ (.declare 2 "b" (.array .float) [] (some
      (.mk 3 ⟨36, 40⟩ (.call (.native 0) [.mk 2 ⟨41, 42⟩ (.load ⟨1, "a", [], .array (.array .int)⟩)]
        (.array .float)))))]),
    .mk 10 ⟨50, 51⟩ (.store row none (.array .int) (.mk 9 ⟨52, 56⟩ (.literal (Slot.ofNull .null)))),
    .mk 12 ⟨58, 63⟩ (.declList [.mk 11 ⟨64, 65⟩ (.declare 3 "c" (.array .float) [] none)]),
    storing,
    .mk 21 ⟨82, 88⟩ (.ret (some (number 20 ⟨89, 90⟩ 0)))])

def main : Function := ⟨0, "main", [], .int, body, false, ⟨4, 8⟩⟩

def program : Program := ⟨"retyped", [main], [], 23, Sharing.environment Sharing.share⟩

def begun : Execution Variable := .begin "retyped" 0 main []

theorem compiled : ofSource "retyped" (Sharing.environment Sharing.share) source = .ok program :=
  ofSource_eq 20 (by decide +kernel) rfl

def unhurried : Program := program.withSteps 100

/-- The store, and the machines on which it waits for its value and has it. -/
def stored? : Option (Nat × Instr × Machine × Variable × Machine) := unhurried.stores? begun .empty [9] 2

/-- It is not enough that each value that a native answers is one that its result type admits then. -/
theorem assigns_not_atomic_retyped :
    ofSource "retyped" (Sharing.environment Sharing.share) source = .ok program ∧
    (∀ f ∈ program.env.natives.natives, ∀ c v, (f.handler c).outcome = .done v →
      (f.handler c).heap.Admits program.class? f.ret v.value) ∧
    program.startFunction? 0 [] .empty = some begun ∧
    ∃ room before m m',
      unhurried.Assigns begun .empty room storing before m (.error (.fault ⟨.nullReference, ⟨74, 75⟩⟩), m') ∧
      (m.heap.elements 2).size = 0 ∧ (m'.heap.elements 2).size = 6 := by
  have natives : ∀ f ∈ program.env.natives.natives, ∀ c v, (f.handler c).outcome = .done v →
      (f.handler c).heap.Admits program.class? f.ret v.value := by
    intro f hf c v done
    cases List.mem_singleton.1 hf
    exact Sharing.share_admits _ c done
  have code : stored?.map (·.2.1) = some storing := Instr.eq_some_of_same 20 (by decide +kernel)
  have ended : stored?.map (fun g => ((turn (exec unhurried g.1) unhurried g.1 g.2.1 g.2.2.1).1,
      (g.2.2.2.2.heap.elements 2).size,
      ((turn (exec unhurried g.1) unhurried g.1 g.2.1 g.2.2.1).2.heap.elements 2).size)) =
      some (.error (.fault ⟨.nullReference, ⟨74, 75⟩⟩), 0, 6) := by decide +kernel
  obtain ⟨⟨room, i, m₀, v, m⟩, found, rfl⟩ := Option.map_eq_some_iff.1 code
  simp only [found, Option.map_some, Option.some.injEq, Prod.mk.injEq] at ended
  obtain ⟨fault, empty, long⟩ := ended
  obtain ⟨before, assigns⟩ := assigns_of_stores? found (show storing.form = .store target _ _ _ from rfl) fault
  exact ⟨compiled, natives, rfl, room, before, m, _, assigns, empty, long⟩

end Retyped

end Program
end Tickwise
