import Tickwise.Proofs.Codec.Execution
import Tickwise.Proofs.Compile.Comparison
import Tickwise.Proofs.Compile.Emission
import Tickwise.Proofs.Execution.Keeping
import Tickwise.Proofs.Machine.KeepingParts
import Tickwise.Proofs.Native.Plain
set_option autoImplicit false

/-!
# Labels name constants

A label comes from a constant of the host and goes with its value: into variables and storage, through calls and
saved state. Whatever computes another value takes the label off.
-/
namespace Tickwise

open Exec

/-- No slot in storage has a label that lies. -/
def Heap.Honest (env : Environment) (h : Heap) : Prop := ∀ r, ∀ v ∈ h.elements r, env.Honest v

def Heap.Unlabelled (h : Heap) : Prop := ∀ r, ∀ v ∈ h.elements r, v.label = none

/-- What a native answers has no label, and any label that it leaves in storage it has copied together with the
value. -/
structure NativeFn.LabelsNothing (f : NativeFn) : Prop where
  result : ∀ c v, (f.handler c).outcome = .done v → v.label = none
  storage : ∀ c r, ∀ v ∈ (f.handler c).heap.elements r, v.label = none ∨
    ∃ u, (u ∈ c.args ∨ ∃ q, u ∈ c.heap.elements q) ∧ u.value = v.value ∧ u.label = v.label

theorem NativeFn.Plain.labelsNothing {f : NativeFn} (plain : f.Plain) : f.LabelsNothing where
  result := plain.label
  storage c r v hv := by
    rw [plain.heap] at hv
    exact .inr ⟨v, .inr ⟨r, hv⟩, rfl, rfl⟩

section

variable {ρ : Type} {env : Environment} {h k : Heap} {v w : Variable}

theorem Environment.honest_of_unlabelled {v : Slot ρ} (none : v.label = none) : env.Honest v := by
  intro name label
  rw [none] at label
  cases label

theorem Environment.Honest.congr {σ : Type} {v : Slot ρ} {w : Slot σ} (h : env.Honest v)
    (value : ∀ c, v.value = .int c → w.value = .int c) (label : w.label = v.label) : env.Honest w := by
  intro name hn
  obtain ⟨c, holds, bound⟩ := h name (label ▸ hn)
  exact ⟨c, value c holds, bound⟩

theorem Heap.Unlabelled.honest (h : k.Unlabelled) : k.Honest env :=
  fun r v hv => Environment.honest_of_unlabelled (h r v hv)

def Environment.labels (env : Environment) : Discipline where
  Admits _ v := env.Honest v
  Stored h := h.Honest env
  Onward _ _ := True
  Converts _ _ := True
  Roomy _ := True
  refl _ := trivial
  trans _ _ := trivial
  mono _ h := h
  same value label h := h.congr (fun _ holds => value.trans holds) label
  plain none _ := honest_of_unlabelled none
  text none _ _ := honest_of_unlabelled none
  unlabelled _ none _ := honest_of_unlabelled none
  number {h v w n} honest number value label := honest.congr (fun c holds => by
    unfold Slot.toInt at number
    rw [holds] at number
    cases number
    exact value) label
  converted _ _ _ _ none := honest_of_unlabelled none
  element stored _ _ := stored _
  write stored _ _ hw _ := by
    refine ⟨fun q v hv => ?_, trivial⟩
    rcases Heap.mem_elements_write hv with rfl | hv
    · exact hw
    · exact stored q v hv
  extend stored _ _ hw _ := by
    refine ⟨fun q v hv => ?_, trivial⟩
    rcases Heap.mem_elements_extend hv with rfl | hv
    · exact hw
    · exact stored q v hv
  alloc stored all _ none := by
    refine ⟨fun q v hv => ?_, trivial, honest_of_unlabelled none⟩
    rcases Heap.mem_elements_alloc hv with hv | hv
    · exact all v hv
    · exact stored q v hv
  roomy _ := trivial

theorem Environment.permits_labels (env : Environment) : env.labels.Permits := ⟨fun _ _ => trivial, fun _ => trivial⟩

theorem NativeFn.LabelsNothing.serves {f : NativeFn} (labels : f.LabelsNothing) {m : Machine} (hm : env.labels.Holds m)
    (phase : CallPhase) (ret : Ty) : env.labels.Serves m.heap ret (m.reply f phase) where
  onward := trivial
  stored r v hv := by
    rcases labels.storage _ r v hv with none | ⟨u, known, value, label⟩
    · exact Environment.honest_of_unlabelled none
    · have honest : env.Honest u := by
        rcases known with arg | ⟨q, stored⟩
        · exact hm.own.operands u arg
        · exact hm.heap q u stored
      exact honest.congr (fun _ holds => value.symm.trans holds) label.symm
  admits v done := Environment.honest_of_unlabelled (labels.result _ v done)
  converts _ _ := trivial

/-!
## Saved state
-/

/-- No label in a tree lies, and it is nested less than `depth` deep. -/
def Tree.Honest (env : Environment) : (depth : Nat) → Tree → Prop
  | 0, _ => False
  | depth + 1, t => env.Honest t.slot ∧ ∀ us, t.slot.value.storage? = some us → ∀ u ∈ us, u.Honest env depth

theorem Heap.Shows.honest {depth : Nat} {t : Tree} (shows : h.Shows depth v t) (stored : h.Honest env)
    (honest : env.Honest v) : t.Honest env depth := by
  induction depth generalizing v t with
  | zero => exact shows.elim
  | succ depth ih =>
    have value := Slot.Alike.value shows
    refine ⟨honest.congr (fun c holds => ?_) (Slot.Alike.label shows).symm, fun us holds u hu => ?_⟩
    · rw [holds] at value
      generalize t.slot.value = shown at value
      cases value
      rfl
    · generalize v.value = held at value
      generalize t.slot.value = shown at value holds
      cases value with
      | array entries | object _ entries =>
        cases holds
        obtain ⟨e, he, shows⟩ := forall₂_exists_left entries hu
        exact ih shows (stored _ e (Array.mem_def.2 he))
      | _ => cases holds

theorem honest_mapThread {g : Tree → Heap → Variable × Heap} {ts : List Tree}
    (each : ∀ t ∈ ts, ∀ h : Heap, h.Honest env → env.Honest (g t h).1 ∧ (g t h).2.Honest env)
    (stored : h.Honest env) :
    (∀ v ∈ (Heap.mapThread g ts h).1, env.Honest v) ∧ (Heap.mapThread g ts h).2.Honest env := by
  induction ts generalizing h with
  | nil => exact ⟨nofun, stored⟩
  | cons t ts ih =>
    obtain ⟨first, rest⟩ := List.forall_mem_cons.1 each
    obtain ⟨own, stored⟩ := first h stored
    obtain ⟨others, stored⟩ := ih rest stored
    exact ⟨List.forall_mem_cons.2 ⟨own, others⟩, stored⟩

theorem Tree.Honest.plant {depth : Nat} {t : Tree} (honest : t.Honest env depth) (stored : h.Honest env) :
    env.Honest (Heap.plant t h).1 ∧ (Heap.plant t h).2.Honest env := by
  induction depth generalizing t h with
  | zero => exact honest.elim
  | succ depth ih =>
    obtain ⟨⟨name, id, ty, value, label⟩⟩ := t
    obtain ⟨own, inner⟩ := honest
    have all (us : List Tree) (holds : value.storage? = some us) :=
      honest_mapThread (g := Heap.plant) (fun u hu _ stored => ih (inner us holds u hu) stored) stored
    -- A label does not go with an array or an object.
    have bare {us : List Tree} (holds : value.storage? = some us) : label = none := by
      cases hl : label with
      | none => rfl
      | some n =>
        obtain ⟨c, held, _⟩ := own n hl
        have held : value = .int c := held
        rw [held] at holds
        cases holds
    have stored' (us : List Tree) (holds : value.storage? = some us) :
        ((Heap.plant.plantAll us h).2.alloc (Heap.plant.plantAll us h).1.toArray).2.Honest env := by
      rw [Heap.plantAll_eq]
      intro q v hv
      rcases Heap.mem_elements_alloc hv with hv | hv
      · exact (all us holds).1 v (List.mem_toArray.1 hv)
      · exact (all us holds).2 q v hv
    cases value with
    | array us => exact ⟨Environment.honest_of_unlabelled (bare rfl), stored' us rfl⟩
    | object cls us => exact ⟨Environment.honest_of_unlabelled (bare rfl), stored' us rfl⟩
    | int c => exact ⟨own.congr (fun _ holds => by cases holds; rfl) rfl, stored⟩
    | _ => exact ⟨own.congr (fun _ holds => by cases holds) rfl, stored⟩

end

namespace Program

variable {p : Program} {env : Environment} {x y : Execution Variable} {s : Session}

theorem honest_of_reload {saved heap loaded : Heap} {bytes : List UInt8} (holds : env.labels.HoldsIn x saved)
    (stored : heap.Honest env) (save : (x.save saved).toExcept = .ok bytes)
    (load : p.load bytes heap = .ok (y, loaded)) : env.labels.HoldsIn y loaded := by
  have readable := Execution.readable_of_load save load
  obtain ⟨noError, rfl⟩ := Codec.ok_of_toExcept save
  obtain ⟨t, alike, run⟩ := (p.readsBack_execution saved x).accepts noError readable []
  rw [List.append_nil] at run
  unfold Program.load at load
  rw [run] at load
  cases load
  have shown := alike.slots
  rw [Execution.slots_reread] at shown
  have trees : ∀ u ∈ t.slots, u.Honest env maxDepth := fun u hu => by
    obtain ⟨v, hv, shows⟩ := forall₂_exists_left shown hu
    exact shows.honest holds.heap (holds.slots v hv)
  obtain ⟨slots, stored⟩ := honest_mapThread (g := Heap.plant) (fun u hu _ stored => (trees u hu).plant stored) stored
  rw [Heap.slots_plantExecution] at slots stored
  exact Discipline.holdsIn_of_slots stored slots

/-- What a host can come to from a function that it starts with arguments without labels: it ticks it, with a budget
for each tick, asks it to stop, restores it, or saves it and loads it, next to what is there or in storage without
labels. -/
inductive Spans (p : Program) : Execution Variable → Session → Prop
  | start {id : FunctionId} {args : List Variable} {x : Execution Variable} {s : Session}
      (unlabelled : ∀ v ∈ args, v.label = none) (stored : s.heap.Unlabelled)
      (start : p.startFunction? id args s.heap = some x) : Spans p x s
  | tick {x : Execution Variable} {s : Session} (budget : Nat) (h : Spans p x s) :
      Spans p ((p.withSteps budget).tick x s).execution ((p.withSteps budget).tick x s).session
  | stop {x : Execution Variable} {s : Session} (h : Spans p x s) : Spans p x.requestStop s
  | restore {x : Execution Variable} {s : Session} (h : Spans p x s) : Spans p (p.restore x).2 s
  | reload {x y : Execution Variable} {s s' : Session} {bytes : List UInt8} {loaded : Heap} (h : Spans p x s)
      (save : (x.save s.heap).toExcept = .ok bytes) (beside : s'.heap = s.heap ∨ s'.heap.Unlabelled)
      (load : p.load bytes s'.heap = .ok (y, loaded)) : Spans p y { s' with heap := loaded }

theorem guides_labels {id : String} {env : Environment} {tokens : List Token} {p : Program}
    (compiled : ofTokens id env tokens = .ok p) (natives : ∀ f ∈ env.natives.natives, f.LabelsNothing) (budget : Nat) :
    env.labels.Guides (p.withSteps budget) (fun _ i _ => i.Emitted env) fun _ i _ => i.Emitted env := by
  obtain ⟨rfl, bodies⟩ := emitted_ofTokens compiled
  exact .of_permits p.env.permits_labels (fun i hi _ v form => hi.literal form) (fun _ _ hi hc => hi.part hc) bodies
    fun f hf m phase ret hm => (natives f hf).serves hm phase ret

theorem Spans.honest {id : String} {env : Environment} {tokens : List Token}
    (compiled : ofTokens id env tokens = .ok p) (natives : ∀ f ∈ env.natives.natives, f.LabelsNothing)
    (h : p.Spans x s) : env.labels.HoldsIn x s.heap := by
  induction h with
  | start unlabelled stored start =>
    exact Discipline.holdsIn_of_start stored.honest (fun v hv => Environment.honest_of_unlabelled (unlabelled v hv))
      (fun _ _ _ _ _ => trivial) start
  | tick budget _ ih =>
    have bodies := (emitted_ofTokens compiled).2
    refine ((guides_labels compiled natives budget).tick ih (fun f y prepared => ?_) fun _ _ _ _ _ _ => trivial).2.1
    exact bodies f (List.mem_of_getElem? (prepare_right prepared).1)
  | stop _ ih => exact ih.stop
  | restore _ ih => exact ih.restore p
  | reload _ save beside load ih =>
    refine honest_of_reload ih ?_ save load
    rcases beside with same | unlabelled
    · exact same ▸ ih.heap
    · exact unlabelled.honest

/-- Where neither arguments nor natives bring labels in, every label in a run is the name of a constant, and goes with
the value that the environment binds to it: in variables, operands, results, arrays and objects, between ticks and
within them, and in what was saved and loaded again. -/
theorem labels_name_constants {id source : String} {env : Environment} {p : Program}
    (compiled : ofSource id env source = .ok p) (natives : ∀ f ∈ env.natives.natives, f.LabelsNothing)
    {x : Execution Variable} {s : Session} (spans : p.Spans x s) :
    (∀ v ∈ x.slots, env.Honest v) ∧ s.heap.Honest env ∧ ∀ budget,
      (∀ v, ((p.withSteps budget).tick x s).tick = .finished v → env.Honest v) ∧
      (∀ i m, (p.withSteps budget).Handles x s i m →
        (∀ f ∈ m.allFrames, ∀ v ∈ f.slots, env.Honest v) ∧ m.heap.Honest env) ∧
      ∀ room i m v m', (p.withSteps budget).Visits x s room i m →
        exec (p.withSteps budget) room i m = (.ok v, m') → env.Honest v := by
  have holds := spans.honest compiled natives
  refine ⟨holds.slots, holds.heap, fun budget => ?_⟩
  have guides := guides_labels compiled natives budget
  have before (f : Function) (y : Execution Variable) (prepared : (p.withSteps budget).prepare x s = .inr (f, y)) :
      f.body.Emitted env :=
    (emitted_ofTokens compiled).2 f (List.mem_of_getElem? (prepare_right prepared).1)
  refine ⟨(guides.tick holds before fun _ _ _ _ _ _ => trivial).2.2, fun i m handles => ?_, ?_⟩
  · have held := guides.handles_tick holds before handles
    exact ⟨fun f hf => held.slots hf, held.heap⟩
  · exact fun room i m v m' visits ended => guides.visits_tick holds before visits ended

/-!
A program that copies a constant of its host within an array, is saved and loaded, and then counts one of the copies
up.
-/
namespace Limited

def environment : Environment :=
  { Environment.withLibrary .printed with constants := [("LIMIT", 7)], limits := ⟨200, 2⟩ }

def source : String := "int main(int n) { int a[] = { LIMIT, n }; a[1] = a[0]; a[0]++; return abs(a[1]); }"

def limit : Variable := { Slot.ofInt 7 with label := some "LIMIT" }

def entry (id : NodeId) (span : Span) (i : Int32) : Place Instr :=
  ⟨2, "a", [.index (.mk id span (.literal (Slot.ofInt i))) .int], .int⟩

def body : Instr :=
  .mk 21 ⟨16, 17⟩ (.block [
    .mk 4 ⟨18, 21⟩ (.declList [.mk 3 ⟨22, 23⟩ (.declare 2 "a" (.array .int) [] (some
      (.mk 2 ⟨28, 29⟩ (.list (.array .int) [.mk 0 ⟨30, 35⟩ (.literal limit),
        .mk 1 ⟨37, 38⟩ (.load ⟨1, "n", [], .int⟩)]))))]),
    .mk 11 ⟨47, 48⟩ (.store (entry 6 ⟨44, 45⟩ 1) none .int (.mk 10 ⟨49, 50⟩ (.load (entry 9 ⟨51, 52⟩ 0)))),
    .mk 15 ⟨59, 61⟩ (.step (entry 13 ⟨57, 58⟩ 0) true false),
    .mk 20 ⟨63, 69⟩ (.ret (some (.mk 19 ⟨70, 73⟩
      (.call (.native 0) [.mk 18 ⟨74, 75⟩ (.load (entry 17 ⟨76, 77⟩ 1))] .int))))])

def program : Program :=
  ⟨"labels", [⟨0, "main", [⟨"n", .int, 1⟩], .int, body, false, ⟨4, 8⟩⟩], [], 22, environment⟩

theorem compiled : ofSource "labels" environment source = .ok program :=
  ofSource_eq 20 (by decide +kernel) rfl

def begun : Execution Variable :=
  ⟨"labels", 0, .ready, [Frame.ofCall 21 [(Slot.ofInt 5).declaredAs "n" 1]], none, none, false⟩

def ticked : TickResult := (program.withSteps 2).tick begun .empty

def counted (y : Execution Variable × Heap) : Array Variable :=
  ((program.withSteps 1).tick y.1 ⟨y.2, .empty⟩).session.heap.elements 0

theorem labels_name_constants_copied :
    ofSource "labels" environment source = .ok program ∧
    (∀ f ∈ environment.natives.natives, f.LabelsNothing) ∧ ∃ x s, program.Spans x s ∧
      s.heap.elements 0 = #[Slot.ofInt 8, limit] ∧ (∀ v ∈ x.slots, environment.Honest v) ∧ s.heap.Honest environment := by
  have natives : ∀ f ∈ environment.natives.natives, f.LabelsNothing :=
    fun f hf => (Library.natives_plain .printed f hf).labelsNothing
  have empty : Heap.Unlabelled .empty := fun _ _ hv => absurd hv (Array.not_mem_empty _)
  have started : program.startFunction? 0 [Slot.ofInt 5] .empty = some begun := rfl
  have started : program.Spans begun .empty := .start (List.forall_mem_singleton.2 rfl) empty started
  obtain ⟨bytes, save, loads⟩ : ∃ bytes, (ticked.execution.save ticked.session.heap).toExcept = .ok bytes ∧
      (program.load bytes .empty).toOption.any (counted · = #[Slot.ofInt 8, limit]) = true :=
    ok_of_any (by decide +kernel)
  obtain ⟨⟨y, k⟩, load, same⟩ := ok_of_any loads
  have beside : Session.empty.heap = ticked.session.heap ∨ Session.empty.heap.Unlabelled := .inr empty
  have reloaded : program.Spans y ⟨k, .empty⟩ := .reload (.tick 2 started) save beside load
  have spans := reloaded.tick 1
  obtain ⟨slots, stored, _⟩ := labels_name_constants compiled natives spans
  exact ⟨compiled, natives, _, _, spans, of_decide_eq_true same, slots, stored⟩

end Limited

/-!
It is not enough that neither arguments nor results have labels. A native may write into an array that it is given,
and what it answers may hold others.
-/
namespace Forged

def forged : Variable := { Slot.ofInt 5 with label := some "LIMIT" }

def mark (c : NativeCall) : NativeReply :=
  let h := match (c.args.headD Slot.ofVoid).value with
    | .array r => c.heap.write r 0 forged
    | _ => c.heap
  ⟨.done Slot.ofVoid, c.state, h, []⟩

def make (c : NativeCall) : NativeReply :=
  let (v, h) := c.heap.newArray .int [forged]
  ⟨.done v, c.state, h, []⟩

def environment (f : NativeFn) : Environment :=
  { Environment.empty with constants := [("LIMIT", 7)], natives := ⟨[f]⟩ }

def marking : Environment := environment ⟨"mark", [.exact (.array .int)], .void, mark⟩

def making : Environment := environment ⟨"make", [], .array .int, make⟩

def marked : String := "int main() { int a[1]; mark(a); return a[0]; }"

def made : String := "int main() { int a[] = make(); return a[0]; }"

theorem not_honest (f : NativeFn) : ¬ (environment f).Honest forged := by
  intro honest
  obtain ⟨c, five, seven⟩ := honest "LIMIT" rfl
  cases five
  exact absurd (show some (7 : Int32) = some 5 from seven) (by decide)

theorem spans (p : Program) {x : Execution Variable} (start : p.startFunction? 0 [] .empty = some x) :
    p.Spans x .empty :=
  .start (List.forall_mem_nil _) (fun _ _ hv => absurd hv (Array.not_mem_empty _)) start

def returnsForged (p : Program) : Bool :=
  (p.startFunction? 0 [] .empty).any fun x => (p.tick x .empty).tick = .finished forged

/-- A label lies although no native answers anything but void, and although no native answers anything with a
label. -/
theorem labels_forged :
    (∃ p x v, ofSource "marked" marking marked = .ok p ∧
      (∀ f ∈ marking.natives.natives, ∀ c w, (f.handler c).outcome = .done w → w = Slot.ofVoid) ∧
      p.Spans x .empty ∧ (p.tick x .empty).tick = .finished v ∧ ¬ marking.Honest v) ∧
    ∃ p x v, ofSource "made" making made = .ok p ∧
      (∀ f ∈ making.natives.natives, ∀ c w, (f.handler c).outcome = .done w → w.label = none) ∧
      p.Spans x .empty ∧ (p.tick x .empty).tick = .finished v ∧ ¬ making.Honest v := by
  obtain ⟨p, compiled, returns⟩ : ∃ p, ofSource "marked" marking marked = .ok p ∧ returnsForged p = true :=
    ok_of_any (by decide +kernel)
  obtain ⟨q, compiled', returns'⟩ : ∃ p, ofSource "made" making made = .ok p ∧ returnsForged p = true :=
    ok_of_any (by decide +kernel)
  obtain ⟨x, start, finished⟩ := (Option.any_eq_true ..).1 returns
  obtain ⟨y, start', finished'⟩ := (Option.any_eq_true ..).1 returns'
  refine ⟨⟨p, x, forged, compiled, ?_, spans p start, of_decide_eq_true finished, not_honest _⟩,
    q, y, forged, compiled', ?_, spans q start', of_decide_eq_true finished', not_honest _⟩
  · intro f hf c w done
    cases List.mem_singleton.1 hf
    cases done
    rfl
  · intro f hf c w done
    cases List.mem_singleton.1 hf
    cases done
    rfl

end Forged

end Program
end Tickwise
