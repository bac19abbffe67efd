import Mathlib
import Tickwise.Proofs.Compile.Comparison
import Tickwise.Proofs.Compile.Trees
import Tickwise.Proofs.Execution.Keeping
import Tickwise.Proofs.Execution.Persistence
import Tickwise.Proofs.Typing.Keeping
import Tickwise.Proofs.Typing.Soundness
set_option autoImplicit false

/-!
# Size limits

Text grows by concatenation and arrays by stores behind their end. Neither grows past what can be saved.
-/
namespace Tickwise

open Exec

example : maxStringBytes = 2 ^ 24 ∧ maxElements = 2 ^ 20 := by decide

/-- A variable within the size limits: text by its bytes, and an array by its elements. -/
structure Heap.Bounds (h : Heap) (v : Variable) : Prop where
  text : ∀ s, v.value = .string s → s.utf8ByteSize ≤ maxStringBytes
  array : ∀ r, v.value = .array r → r < h.size ∧ (h.elements r).size ≤ maxElements

/-- All elements and fields are within the size limits. -/
def Heap.Bounded (h : Heap) : Prop := ∀ r, ∀ v ∈ h.elements r, h.Bounds v

namespace Heap

variable {h k : Heap} {v w : Variable} {r : Ref} {n : Nat}

theorem Bounds.congr (same : w.value = v.value) (hv : h.Bounds v) : h.Bounds w :=
  ⟨fun s hs => hv.text s (same ▸ hs), fun r hr => hv.array r (same ▸ hr)⟩

theorem bounds_of_plain (plain : v.value.IsPlain) : h.Bounds v := by
  refine ⟨fun s hs => ?_, fun r hr => ?_⟩
  · rw [hs] at plain
    exact plain.elim
  · rw [hr] at plain
    exact plain.elim

theorem bounds_of_string {s : String} (value : v.value = .string s) (short : s.utf8ByteSize ≤ maxStringBytes) :
    h.Bounds v := by
  refine ⟨fun t ht => ?_, fun r hr => ?_⟩
  · cases value.symm.trans ht
    exact short
  · cases value.symm.trans hr

theorem Bounds.mono (le : h.size ≤ k.size)
    (short : ∀ r < h.size, (h.elements r).size ≤ maxElements → (k.elements r).size ≤ maxElements) (hv : h.Bounds v) :
    k.Bounds v := by
  refine ⟨hv.text, fun r hr => ?_⟩
  obtain ⟨there, small⟩ := hv.array r hr
  exact ⟨Nat.lt_of_lt_of_le there le, short r there small⟩

theorem bounds_write (hv : h.Bounds v) : (h.write r n w).Bounds v := by
  refine hv.mono (Nat.le_of_eq (size_write ..).symm) fun q _ small => ?_
  rw [elements_write]
  split
  · next same => rwa [Array.size_setIfInBounds, ← same]
  · exact small

theorem bounds_extend (there : r < h.size) (small : n ≤ maxElements) (hv : h.Bounds v) : (h.extend r n w).Bounds v := by
  refine hv.mono (Nat.le_of_eq (size_extend ..).symm) fun q _ short => ?_
  rw [elements_extend there]
  split
  · next same =>
    subst same
    rw [Array.size_append, Array.size_replicate]
    omega
  · exact short

theorem bounds_alloc {slots : Array Variable} (hv : h.Bounds v) : (h.alloc slots).2.Bounds v := by
  refine hv.mono ?_ fun q there small => ?_
  · rw [size_alloc]
    exact Nat.le_succ _
  · rw [elements_alloc, if_neg (Nat.ne_of_lt there)]
    exact small

end Heap

def Discipline.limits : Discipline where
  Admits := Heap.Bounds
  Stored := Heap.Bounded
  Onward h k := ∀ v, h.Bounds v → k.Bounds v
  Converts := Ty.Unrendered
  Roomy n := n ≤ maxElements
  refl _ _ hv := hv
  trans first second v hv := second v (first v hv)
  mono onward hv := onward _ hv
  same value _ hv := hv.congr value
  plain _ plain := Heap.bounds_of_plain plain
  text _ value short := Heap.bounds_of_string value short
  unlabelled value _ hv := hv.congr value
  number _ _ value _ := Heap.bounds_of_plain (by rw [value]; trivial)
  converted {h v w s} hv text rendered value _ := by
    obtain ⟨t, ht⟩ := text rfl
    unfold Heap.toText at rendered
    rw [ht] at rendered
    cases rendered
    exact Heap.bounds_of_string value (hv.text _ ht)
  element stored _ _ := stored _
  write stored _ _ hw k := by
    refine ⟨fun q v hv => Heap.bounds_write ?_, fun v => Heap.bounds_write⟩
    rcases Heap.mem_elements_write hv with rfl | hv
    · exact hw
    · exact stored q v hv
  extend stored hv value hw small := by
    have there := (hv.array _ value).1
    refine ⟨fun q v hv => Heap.bounds_extend there small ?_, fun v => Heap.bounds_extend there small⟩
    rcases Heap.mem_elements_extend hv with rfl | hv
    · exact hw
    · exact stored q v hv
  alloc {h slots v} stored all value _ := by
    refine ⟨fun q v hv => Heap.bounds_alloc ?_, fun v => Heap.bounds_alloc, ?_⟩
    · rcases Heap.mem_elements_alloc hv with hv | hv
      · exact all v hv
      · exact stored q v hv
    · rcases value with ⟨value, small⟩ | ⟨c, value⟩
      · refine ⟨fun s hs => ?_, fun r hr => ?_⟩
        · cases value.symm.trans hs
        · cases value.symm.trans hr
          rw [Heap.size_alloc, Heap.elements_alloc, if_pos rfl]
          exact ⟨Nat.lt_succ_self _, small⟩
      · exact ⟨fun s hs => (by cases value.symm.trans hs), fun r hr => (by cases value.symm.trans hr)⟩
  roomy small := small

/-!
## Programs and natives
-/

/-- A literal or a list in the code is within the size limits. -/
def Form.Bounded : Form Instr → Prop
  | .literal v => ∀ s, v.value = .string s → s.utf8ByteSize ≤ maxStringBytes
  | .list _ es => es.length ≤ maxElements
  | _ => True

/-- All literals and lists in an instruction are within the size limits. -/
def Instr.Bounded (i : Instr) : Prop := ∀ j ∈ i.all, j.form.Bounded

theorem Instr.Bounded.form {i : Instr} (h : i.Bounded) : i.form.Bounded := by
  unfold Instr.Bounded at h
  rw [all_eq] at h
  exact h i List.mem_cons_self

theorem Instr.Bounded.part {i c : Instr} (h : i.Bounded) (hc : c ∈ i.children) : c.Bounded := by
  unfold Instr.Bounded at h
  rw [all_eq] at h
  exact fun j hj => h j (List.mem_cons_of_mem _ (List.mem_flatMap.2 ⟨c, hc, hj⟩))

/-- Invoked with arguments of its parameter types, in storage that is typed and with everything within the size
limits, the native lets nothing grow past them, and answers nothing larger. -/
def NativeFn.KeepsLimits (f : NativeFn) (class? : String → Option ClassLayout) : Prop :=
  ∀ (S : Shapes) (c : NativeCall), S.class? = class? → S.Describes c.heap →
    List.Forall₂ (fun param v => S.Takes param v.value) f.params c.args →
    c.heap.Bounded → (∀ v ∈ c.args, c.heap.Bounds v) →
    (∀ v, c.heap.Bounds v → (f.handler c).heap.Bounds v) ∧ (f.handler c).heap.Bounded ∧
      ∀ v, (f.handler c).outcome = .done v → (f.handler c).heap.Bounds v

theorem NativeFn.KeepsLimits.answers {D : Declarations} {f : NativeFn} (keeps : f.KeepsLimits D.class?) :
    Discipline.limits.Answers D f := fun S m phase typed takes held =>
  keeps S.toShapes ⟨m.own.operands, phase, Int32.ofInt m.own.index, m.heap, m.journal⟩ typed.classes
    typed.heap.toShapes takes held.heap held.own.operands

/-- An instruction is as the compiler makes it, and within the size limits. -/
structure Instr.Fit (env : Environment) (i : Instr) : Prop where
  emitted : i.Emitted env
  closed : i.Closed
  bounded : i.Bounded

theorem Discipline.limits_suits (env : Environment) : Discipline.limits.Suits env (Instr.Fit env) where
  converts _ _ unrendered := unrendered
  emitted _ hi := hi.emitted.form
  literal := by
    rintro i ⟨_, closed, bounded⟩ h v form
    have small := bounded.form
    rw [form] at small
    refine ⟨small, fun r value => ?_⟩
    have none := closed.literal form
    rw [value] at none
    cases none
  roomy := by
    rintro i ⟨_, _, bounded⟩ ty es form n short
    have small := bounded.form
    rw [form] at small
    exact Nat.le_trans short small
  part := by
    rintro i c ⟨emitted, closed, bounded⟩ hc
    exact ⟨emitted.part hc, closed.part hc, bounded.part hc⟩

/-!
## Ticks
-/

namespace Program

variable {p : Program} {D : Declarations} {S : MarkedShapes} {x x₀ : Execution Variable} {s s₀ : Session}

structure Limited (p : Program) (D : Declarations) : Prop where
  bodies : ∀ f ∈ p.functions, f.body.Fit p.env
  natives : ∀ f ∈ p.env.natives.natives, Discipline.limits.Answers D f

theorem Limited.guides (h : p.Limited D) (budget : Nat) :
    Discipline.limits.Guides (p.withSteps budget) (fun _ i m => i.Fit p.env ∧ (p.withSteps budget).Precedes D i m)
      fun _ i m => i.Fit p.env ∧ (p.withSteps budget).Proceeds D i m :=
  .of_typed (Discipline.limits_suits p.env) h.bodies h.natives

section

variable (h : p.Limited D) (hp : p.Keeps D S.marking) (stands : p.Stands D S x s) (budget : Nat)

include h hp stands

theorem Limited.before (f : Function) (y : Execution Variable) (prepared : (p.withSteps budget).prepare x s = .inr (f, y)) :
    f.body.Fit p.env ∧ (p.withSteps budget).Precedes D f.body ((p.withSteps budget).machine y s) :=
  ⟨h.bodies f (List.mem_of_getElem? (prepare_right prepared).1), f.ret, S, hp.withSteps budget,
    stands.before hp.typed prepared⟩

theorem Limited.tick (held : Discipline.limits.HoldsIn x s.heap) :
    Discipline.limits.HoldsIn ((p.withSteps budget).tick x s).execution ((p.withSteps budget).tick x s).session.heap ∧
      ∀ v, ((p.withSteps budget).tick x s).tick = .finished v →
        ((p.withSteps budget).tick x s).session.heap.Bounds v := by
  refine ((h.guides budget).tick held (h.before hp stands budget) fun f y v m prepared run => ?_).2
  obtain ⟨S', _, _, has⟩ := run.sound (hp.withSteps budget) (stands.before hp.typed prepared)
  exact Ty.unrendered_of_has has

end

theorem Limited.follows (h : p.Limited D) (hp : p.Keeps D S.marking) (start : p.Stands D S x₀ s₀)
    (held : Discipline.limits.HoldsIn x₀ s₀.heap) (follows : p.Follows x₀ s₀ x s) :
    Discipline.limits.HoldsIn x s.heap := by
  induction follows with
  | refl => exact held
  | tick budget follows ih =>
    obtain ⟨S', le, stands⟩ := follows.stands start hp
    exact (h.tick (hp.mono le) stands budget ih).1
  | stop _ ih => exact ih.stop

/-- A compiled program whose literals and lists are within the size limits, started with arguments of the parameter
types, keeps within the limits as far as its natives do: between ticks and within them no text and no array is larger,
be it in a variable, an operand, a result, an array or an object. -/
theorem limits_kept {id source : String} {env : Environment} (compiled : ofSource id env source = .ok p)
    (code : ∀ f ∈ p.functions, f.body.Bounded)
    (natives : ∀ f ∈ env.natives.natives, f.KeepsTypes p.class? ∧ f.KeepsLimits p.class?) {entry : FunctionId}
    {f : Function} {args : List Variable} (found : p.function? entry = some f) (accepts : p.Accepts f args s₀.heap)
    (small : ∀ v ∈ args, s₀.heap.Bounds v) (stored : s₀.heap.Bounded)
    (start : p.startFunction? entry args s₀.heap = some x₀) (follows : p.Follows x₀ s₀ x s) :
    (∀ v ∈ x.slots, s.heap.Bounds v) ∧ s.heap.Bounded ∧ ∀ budget,
      (∀ v, ((p.withSteps budget).tick x s).tick = .finished v →
        ((p.withSteps budget).tick x s).session.heap.Bounds v) ∧
      (∀ i m, (p.withSteps budget).Handles x s i m →
        (∀ f ∈ m.allFrames, ∀ v ∈ f.slots, m.heap.Bounds v) ∧ m.heap.Bounded) ∧
      ∀ room i m v m', (p.withSteps budget).Visits x s room i m →
        exec (p.withSteps budget) room i m = (.ok v, m') → m'.heap.Bounds v := by
  obtain ⟨D, typed⟩ := typed_ofTokens compiled
  obtain ⟨rfl, emitted⟩ := emitted_ofTokens compiled
  have classes : D.class? = p.class? := (funext typed.classes).symm
  have hp : p.Keeps D .loose := by
    refine ⟨typed, fun {native f} known => ?_⟩
    rw [classes]
    rw [← typed.natives] at known
    exact (natives f (List.mem_of_getElem? known)).1.loose
  have limited : p.Limited D := by
    refine ⟨fun f hf => ⟨emitted f hf, closed_of_typed (typed.functions f hf).body, code f hf⟩, fun f hf => ?_⟩
    have keeps := (natives f hf).2
    rw [← classes] at keeps
    exact keeps.answers
  obtain ⟨S, same, described, has⟩ := accepts
  have begun : p.Holds D ⟨S, .loose⟩ f x₀ s₀ :=
    holds_of_start typed found same (Shapes.describes_loose.2 described) has start
  have held : Discipline.limits.HoldsIn x₀ s₀.heap := by
    refine Discipline.holdsIn_of_start stored small (fun g known q v mem => ?_) start
    cases found.symm.trans known
    exact Ty.unrendered_of_has ((List.forall₂_iff_zip.1 has).2 mem)
  have held := limited.follows hp (.inl ⟨f, begun⟩) held follows
  obtain ⟨S', le, stands⟩ := follows.stands (.inl ⟨f, begun⟩) hp
  have hp := hp.mono le
  refine ⟨held.slots, held.heap, fun budget => ?_⟩
  have guides := limited.guides budget
  have before := limited.before hp stands budget
  refine ⟨(limited.tick hp stands budget held).2, fun i m handles => ?_, fun room i m v m' visits ended => ?_⟩
  · have held := guides.handles_tick held before handles
    exact ⟨fun f hf => held.slots hf, held.heap⟩
  · exact guides.visits_tick held before visits ended

/-!
A program that appends the answer of a native to its argument, behind the end of an array, and a number to that.
-/
namespace Growing

def tag : NativeFn := ⟨"tag", [], .string, fun c => ⟨.done (Slot.ofString "ab"), c.state, c.heap, []⟩⟩

def environment : Environment := { Environment.empty with natives := ⟨[tag]⟩, limits := ⟨200, 3⟩ }

def source : String :=
  "string main(string t) { string a[] = { t, tag() }; a[2] = a[0] + a[1]; a[2] += 7; return a[2]; }"

def entry (id : NodeId) (span : Span) (i : Int32) : Place Instr :=
  ⟨2, "a", [.index (.mk id span (.literal (Slot.ofInt i))) .string], .string⟩

def body : Instr :=
  .mk 25 ⟨22, 23⟩ (.block [
    .mk 4 ⟨24, 30⟩ (.declList [.mk 3 ⟨31, 32⟩ (.declare 2 "a" (.array .string) [] (some
      (.mk 2 ⟨37, 38⟩ (.list (.array .string) [.mk 0 ⟨39, 40⟩ (.load ⟨1, "t", [], .string⟩),
        .mk 1 ⟨42, 45⟩ (.call (.native 0) [] .string)]))))]),
    .mk 15 ⟨56, 57⟩ (.store (entry 6 ⟨53, 54⟩ 2) none .string (.mk 14 ⟨63, 64⟩ (.binary .add .string
      (.mk 10 ⟨58, 59⟩ (.load (entry 9 ⟨60, 61⟩ 0))) (.mk 13 ⟨65, 66⟩ (.load (entry 12 ⟨67, 68⟩ 1)))))),
    .mk 20 ⟨76, 78⟩ (.store (entry 17 ⟨73, 74⟩ 2) (some .add) .string (.mk 19 ⟨79, 80⟩ (.literal (Slot.ofInt 7)))),
    .mk 24 ⟨82, 88⟩ (.ret (some (.mk 23 ⟨89, 90⟩ (.load (entry 22 ⟨91, 92⟩ 2)))))])

def main : Function := ⟨0, "main", [⟨"t", .string, 1⟩], .string, body, false, ⟨7, 11⟩⟩

def program : Program := ⟨"growing", [main], [], 26, environment⟩

theorem compiled : ofSource "growing" environment source = .ok program :=
  ofSource_eq 20 (by decide +kernel) rfl

theorem body_bounded : body.Bounded := by
  simp [Instr.Bounded, body, entry, Instr.all_eq, Instr.children, Instr.form, Form.children, Place.indices,
    Form.Bounded, Slot.ofInt, Slot.temp, maxElements]

theorem tag_keepsTypes (class? : String → Option ClassLayout) : tag.KeepsTypes class? := by
  intro S c _ described _
  refine ⟨S, .refl S, described, fun v done => ?_⟩
  cases done
  exact ⟨"ab", rfl⟩

theorem tag_keepsLimits (class? : String → Option ClassLayout) : tag.KeepsLimits class? := by
  intro S c _ _ _ stored _
  refine ⟨fun v hv => hv, stored, fun v done => ?_⟩
  cases done
  exact Heap.bounds_of_string rfl (by decide)

def begun : Execution Variable :=
  ⟨"growing", 0, .ready, [Frame.ofCall 25 [(Slot.ofString "x").declaredAs "t" 1]], none, none, false⟩

def ticked : TickResult := (program.withSteps 3).tick begun .empty

theorem limits_kept_growing :
    ofSource "growing" environment source = .ok program ∧ (∀ f ∈ program.functions, f.body.Bounded) ∧
    (∀ f ∈ environment.natives.natives, f.KeepsTypes program.class? ∧ f.KeepsLimits program.class?) ∧
    program.startFunction? 0 [Slot.ofString "x"] .empty = some begun ∧
    program.Follows begun .empty ticked.execution ticked.session ∧
    (ticked.session.heap.elements 0).map Slot.value = #[.string "x", .string "ab", .string "xab7"] ∧
    (∀ v ∈ ticked.execution.slots, ticked.session.heap.Bounds v) ∧ ticked.session.heap.Bounded := by
  have code : ∀ f ∈ program.functions, f.body.Bounded := List.forall_mem_singleton.2 body_bounded
  have natives : ∀ f ∈ environment.natives.natives, f.KeepsTypes program.class? ∧ f.KeepsLimits program.class? :=
    List.forall_mem_singleton.2 ⟨tag_keepsTypes _, tag_keepsLimits _⟩
  have accepts : program.Accepts main [Slot.ofString "x"] Session.empty.heap :=
    ⟨⟨_, fun _ => none⟩, rfl, ⟨nofun, nofun⟩, .cons ⟨"x", rfl⟩ .nil⟩
  have small : ∀ v ∈ [Slot.ofString "x"], Session.empty.heap.Bounds v :=
    List.forall_mem_singleton.2 (Heap.bounds_of_string rfl (by decide))
  have stored : Session.empty.heap.Bounded := fun _ _ hv => absurd hv (Array.not_mem_empty _)
  have start : program.startFunction? 0 [Slot.ofString "x"] Session.empty.heap = some begun := rfl
  have follows : program.Follows begun .empty ticked.execution ticked.session := .tick 3 .refl
  obtain ⟨slots, bounded, _⟩ := limits_kept compiled code natives rfl accepts small stored start follows
  exact ⟨compiled, code, natives, start, follows, by decide +kernel, slots, bounded⟩

end Growing

/-!
A program that stores an array of one text where a native lets it read a text. What it reads is the array in braces.
-/
namespace Overlong

def source : String :=
  "string main(string s) { string a[][]; string b[] = same(a); string c[] = { s }; a[0] = c; return b[0]; }"

def same : NativeFn := ⟨"same", [.anyArray], .array .string, Sharing.share⟩

def environment : Environment := { Environment.empty with natives := ⟨[same]⟩ }

def first (id : NodeId) (span : Span) : Instr := .mk id span (.literal (Slot.ofInt 0))

def body : Instr :=
  .mk 19 ⟨22, 23⟩ (.block [
    .mk 1 ⟨24, 30⟩ (.declList [.mk 0 ⟨31, 32⟩ (.declare 2 "a" (.array (.array .string)) [] none)]),
    .mk 5 ⟨38, 44⟩ (.declList [.mk 4 ⟨45, 46⟩ (.declare 3 "b" (.array .string) [] (some
      (.mk 3 ⟨51, 55⟩ (.call (.native 0) [.mk 2 ⟨56, 57⟩ (.load ⟨2, "a", [], .array (.array .string)⟩)]
        (.array .string)))))]),
    .mk 9 ⟨60, 66⟩ (.declList [.mk 8 ⟨67, 68⟩ (.declare 4 "c" (.array .string) [] (some
      (.mk 7 ⟨73, 74⟩ (.list (.array .string) [.mk 6 ⟨75, 76⟩ (.load ⟨1, "s", [], .string⟩)]))))]),
    .mk 14 ⟨85, 86⟩ (.store ⟨2, "a", [.index (first 11 ⟨82, 83⟩) (.array .string)], .array .string⟩ none
      (.array .string) (.mk 13 ⟨87, 88⟩ (.load ⟨4, "c", [], .array .string⟩))),
    .mk 18 ⟨90, 96⟩ (.ret (some (.mk 17 ⟨97, 98⟩ (.load ⟨3, "b", [.index (first 16 ⟨99, 100⟩) .string], .string⟩))))])

def main : Function := ⟨0, "main", [⟨"s", .string, 1⟩], .string, body, false, ⟨7, 11⟩⟩

def program : Program := ⟨"overlong", [main], [], 20, environment⟩

theorem bounded_body : body.Bounded := by
  simp [Instr.Bounded, body, first, Instr.all_eq, Instr.children, Instr.form, Form.children, Place.indices,
    Form.Bounded, Slot.ofInt, Slot.temp, maxElements]

theorem bounds_same (c : NativeCall) {v : Variable} (done : (same.handler c).outcome = .done v) : c.heap.Bounds v := by
  cases done
  refine ⟨fun t text => ?_, fun r handle => ?_⟩
  · dsimp only [Slot.temp] at text
    repeat' split at text
    all_goals cases text
  · dsimp only [Slot.temp] at handle
    split at handle
    case h_1 =>
      split at handle
      case isTrue empty =>
        cases handle
        refine ⟨empty.1, ?_⟩
        rw [empty.2]
        exact Nat.zero_le _
      case isFalse => cases handle
    case h_2 => cases handle

def doubled : Nat → String
  | 0 => "x"
  | n + 1 => doubled n ++ doubled n

theorem utf8ByteSize_doubled (n : Nat) : (doubled n).utf8ByteSize = 2 ^ n := by
  induction n with
  | zero => decide
  | succ n ih => rw [doubled, String.utf8ByteSize_append, ih, Nat.pow_succ, Nat.mul_two]

def begun (s : String) : Execution Variable :=
  ⟨"overlong", 0, .ready, [Frame.ofCall 19 [(Slot.ofString s).declaredAs "s" 1]], none, none, false⟩

def ticked (s : String) : TickResult := (program.withSteps 100).tick (begun s) .empty

theorem tick_ticked (s : String) : (ticked s).tick = .finished (Slot.ofString ("\x7b" ++ s ++ "\x7d")) := by
  -- For an unknown text only `cbv` gets through the tick. It takes equations from all over the library.
  cbv

/-- It is not enough that each value that a native answers is within the limits, and one that its result type admits
then: of a text as long as it may be, a longer one is made. -/
theorem limits_not_kept_overlong :
    ofSource "overlong" environment source = .ok program ∧ (∀ f ∈ program.functions, f.body.Bounded) ∧
    (∀ f ∈ environment.natives.natives, ∀ c, (f.handler c).heap = c.heap ∧ ∀ v, (f.handler c).outcome = .done v →
      c.heap.Admits program.class? f.ret v.value ∧ c.heap.Bounds v) ∧
    program.Accepts main [Slot.ofString (doubled 24)] .empty ∧ Heap.empty.Bounds (Slot.ofString (doubled 24)) ∧
    program.startFunction? 0 [Slot.ofString (doubled 24)] .empty = some (begun (doubled 24)) ∧
    ∃ v, (ticked (doubled 24)).tick = .finished v ∧ ¬ (ticked (doubled 24)).session.heap.Bounds v := by
  have compiled : ofSource "overlong" environment source = .ok program := ofSource_eq 20 (by decide +kernel) rfl
  have natives : ∀ f ∈ environment.natives.natives, ∀ c, (f.handler c).heap = c.heap ∧ ∀ v,
      (f.handler c).outcome = .done v → c.heap.Admits program.class? f.ret v.value ∧ c.heap.Bounds v :=
    List.forall_mem_singleton.2 fun c => ⟨rfl, fun _ done => ⟨Sharing.share_admits _ c done, bounds_same c done⟩⟩
  have accepts : program.Accepts main [Slot.ofString (doubled 24)] .empty :=
    ⟨⟨_, fun _ => none⟩, rfl, ⟨nofun, nofun⟩, .cons ⟨_, rfl⟩ .nil⟩
  have size : (doubled 24).utf8ByteSize = maxStringBytes := utf8ByteSize_doubled 24
  have small : Heap.empty.Bounds (Slot.ofString (doubled 24)) := Heap.bounds_of_string rfl (Nat.le_of_eq size)
  refine ⟨compiled, List.forall_mem_singleton.2 bounded_body, natives, accepts, small, rfl, _, tick_ticked _, ?_⟩
  intro bounds
  have short := bounds.text _ rfl
  rw [String.utf8ByteSize_append, String.utf8ByteSize_append, size] at short
  exact absurd short (by decide)

end Overlong

end Program
end Tickwise
