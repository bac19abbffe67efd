import Tickwise.Compile.Unit
import Tickwise.Proofs.Codec.Resaving
import Tickwise.Proofs.Compile.Comparison
import Tickwise.Proofs.Typing.Visits
set_option autoImplicit false

/-!
# Outcomes that are kept

An execution that is over answers each tick with its outcome. Saved and loaded, it answers with a value that
holds the same, or with a fault of the same code at the same place. Of the fault only the code is saved: one that
a native raised, or that was thrown with a code of the reserved range, comes back as another.
-/
namespace Tickwise

namespace Fault

def isReserved : Fault → Bool
  | native _ => false
  | thrown _ => false
  | _ => true

/-- Its code tells the fault: it is none of a native, and no code was thrown that stands for another fault. -/
def Coded : Fault → Prop
  | native _ => False
  | thrown c => c < 6000 ∨ 6010 < c
  | _ => True

theorem ofCode_cases (c : Int32) : ofCode c = thrown c ∧ (c < 6000 ∨ 6010 < c) ∨
    (ofCode c).isReserved = true ∧ ¬ (c < 6000 ∨ 6010 < c) := by
  unfold ofCode
  dsimp only
  generalize all : [divisionByZero, uninitialized, nullReference, indexOutOfRange, negativeSize, stackOverflow,
    missingReturn, stopped, notRestored, arrayTooLarge, stringTooLong] = reserved
  cases found : reserved.find? fun f => f.code = c with
  | none =>
    subst all
    simp only [List.find?_eq_none, List.forall_mem_cons, code] at found
    refine .inl ⟨rfl, ?_⟩
    simp only [← Int32.toInt_inj, Int32.lt_iff_toInt_lt] at found ⊢
    simp at found ⊢
    omega
  | some f =>
    have range : ∀ f ∈ reserved, f.isReserved = true ∧ ¬ (f.code < 6000 ∨ 6010 < f.code) := by
      subst all
      decide
    have same : f.code = c := by simpa using List.find?_some found
    exact .inr (same ▸ range f (List.mem_of_find?_eq_some found))

theorem ofCode_code_iff (f : Fault) : ofCode f.code = f ↔ f.Coded := by
  cases f with
  | native c =>
    refine iff_of_false (fun same => ?_) id
    rcases ofCode_cases c with ⟨thrown, _⟩ | ⟨reserved, _⟩
    · cases thrown.symm.trans same
    · change ofCode c = _ at same
      rw [same] at reserved
      cases reserved
  | thrown c =>
    change ofCode c = _ ↔ _
    rcases ofCode_cases c with ⟨thrown, outside⟩ | ⟨reserved, inside⟩
    · exact iff_of_true thrown outside
    · refine iff_of_false (fun same => ?_) inside
      rw [same] at reserved
      cases reserved
  | _ => exact iff_of_true rfl trivial

end Fault

namespace Program

variable {p : Program} {x y : Execution Variable} {s t : Session}

def Ended (x : Execution Variable) (outcome : Tick) : Prop :=
  x.status = .finished ∧ outcome = .finished (x.result.getD Slot.ofVoid) ∨
    x.status = .faulted ∧ outcome = .faulted (x.fault.getD ⟨.notRestored, Span.empty⟩)

theorem Ended.tick {outcome : Tick} (h : Ended x outcome) (p : Program) (s : Session) :
    p.tick x s = ⟨outcome, x, s, [], 0, none⟩ := by
  rcases h with ⟨status, rfl⟩ | ⟨status, rfl⟩ <;> simp [Program.tick, prepare, status]

theorem ended_conclude {f : Function} {o : Except Interrupt Variable} {m : Machine}
    (final : (conclude f x o m).tick.isFinal = true) :
    Ended (conclude f x o m).execution (conclude f x o m).tick := by
  unfold conclude at final ⊢
  cases ends : verdict f o m.heap with
  | suspended =>
    rw [ends] at final
    cases final
  | finished value => exact .inl ⟨rfl, rfl⟩
  | faulted error => exact .inr ⟨rfl, rfl⟩

theorem ended_tick (final : (p.tick x s).tick.isFinal = true) : Ended (p.tick x s).execution (p.tick x s).tick := by
  unfold Program.tick at final ⊢
  cases prepared : p.prepare x s with
  | inr goes =>
    rw [prepared] at final
    exact ended_conclude final
  | inl r =>
    cases prepare_iff.1 prepared with
    | finished status => exact .inl ⟨status, rfl⟩
    | faulted status => exact .inr ⟨status, rfl⟩
    | foreign => exact .inr ⟨rfl, rfl⟩
    | refused => exact .inr ⟨rfl, rfl⟩

theorem Ended.follows {outcome : Tick} (h : Ended x outcome) (after : p.Follows x s y t) : Ended y outcome := by
  induction after with
  | refl => exact h
  | tick budget _ ih =>
    rw [ih.tick]
    exact ih
  | stop _ ih => exact ih

/-- What answers a tick in place of an outcome that was saved and loaded: a value that holds the same, or a fault
of the same code at the same place. -/
inductive Answers (h k : Heap) : Tick → Tick → Prop
  | finished {v w : Variable} (same : h.SameContent k v w) : Answers h k (.finished v) (.finished w)
  | faulted {e e' : RuntimeError} (code : e'.fault.code = e.fault.code) (span : e'.span = e.span)
      (same : e' = e ↔ e.fault.Coded) : Answers h k (.faulted e) (.faulted e')

theorem answers_reread (h k : Heap) (e : RuntimeError) : Answers h k (.faulted e) (.faulted e.reread) := by
  refine .faulted (Fault.code_ofCode _) rfl ?_
  rw [← Fault.ofCode_code_iff, RuntimeError.reread]
  constructor
  · exact congrArg RuntimeError.fault
  · intro same
    rw [same]

theorem sameContent_void (h k : Heap) : h.SameContent k Slot.ofVoid Slot.ofVoid :=
  ⟨fun _ _ => False, nofun, rfl, rfl, rfl, .void, rfl⟩

theorem Ended.reread {outcome : Tick} (h : Ended x outcome) {heap k : Heap}
    (alike : x.reread.Alike (heap.SameContent k) y) : ∃ answer, Ended y answer ∧ Answers heap k outcome answer := by
  rcases h with ⟨status, rfl⟩ | ⟨status, rfl⟩
  · have same : Option.Rel (heap.SameContent k) x.result y.result := alike.result
    refine ⟨_, .inl ⟨alike.status.symm.trans status, rfl⟩, .finished ?_⟩
    generalize x.result = v at same ⊢
    generalize y.result = w at same ⊢
    cases same with
    | none => exact sameContent_void heap k
    | some same => exact same
  · have fault : y.fault = x.fault.map RuntimeError.reread := alike.fault.symm
    refine ⟨_, .inr ⟨alike.status.symm.trans status, rfl⟩, ?_⟩
    rw [fault]
    cases x.fault with
    | none => exact answers_reread heap k ⟨.notRestored, Span.empty⟩
    | some e => exact answers_reread heap k e

/-- After the tick that ends an execution, and whatever ticks and stop requests follow, each tick returns its
outcome again and changes nothing. The same holds of what is saved then and loaded, with an outcome that holds
the same, or has the same code and place; it is the same fault unless its code stands for another. -/
theorem outcome_kept (p : Program) (x : Execution Variable) (s : Session)
    (final : (p.tick x s).tick.isFinal = true) (y : Execution Variable) (t : Session)
    (after : p.Follows (p.tick x s).execution (p.tick x s).session y t) :
    (∀ s', p.tick y s' = ⟨(p.tick x s).tick, y, s', [], 0, none⟩) ∧
    ∀ bytes k z k', (y.save t.heap).toExcept = .ok bytes → p.load bytes k = .ok (z, k') →
      ∃ answer, Answers t.heap k' (p.tick x s).tick answer ∧ ∀ s', p.tick z s' = ⟨answer, z, s', [], 0, none⟩ := by
  have ended : Ended y (p.tick x s).tick := (ended_tick final).follows after
  refine ⟨ended.tick p, fun bytes k z k' save load => ?_⟩
  rw [← List.append_nil bytes] at load
  obtain ⟨_, alike, _⟩ := p.load_faithful y t.heap k bytes [] z k' save load
  obtain ⟨answer, again, answers⟩ := ended.reread alike
  exact ⟨answer, answers, again.tick p⟩

/-!
A native fails with the code 5, and codes are thrown.
-/
namespace Recoded

def environment : Environment :=
  { Environment.empty with natives := ⟨[⟨"boom", [], .void, fun c => ⟨.fault 5, c.state, c.heap, []⟩⟩]⟩ }

def main (body : Instr) : Function := ⟨0, "main", [], .void, body, false, ⟨5, 9⟩⟩

def raising : Program :=
  ⟨"test", [main (.mk 1 ⟨12, 13⟩ (.block [.mk 0 ⟨14, 18⟩ (.call (.native 0) [] .void)]))], [], 2, environment⟩

def thrower (code : Int32) (literal : Span) : Function :=
  main (.mk 2 ⟨12, 13⟩ (.block [.mk 1 ⟨14, 19⟩ (.throw (.mk 0 literal (.literal (Slot.ofInt code))))]))

def throwing (code : Int32) (literal : Span) : Program := ⟨"test", [thrower code literal], [], 3, environment⟩

theorem compiled_raising : ofSource "test" environment "void main() { boom(); }" = .ok raising :=
  ofSource_eq 20 (by decide +kernel) rfl

theorem compiled_throwing :
    ofSource "test" environment "void main() { throw 6000; }" = .ok (throwing 6000 ⟨20, 24⟩) :=
  ofSource_eq 20 (by decide +kernel) rfl

def Reloads (p : Program) (before after : Tick) : Prop :=
  ∃ x bytes y k, p.start? "main" [] .empty = some x ∧ (p.tick x .empty).tick = before ∧
    ((p.tick x .empty).execution.save (p.tick x .empty).session.heap).toExcept = .ok bytes ∧
    p.load bytes .empty = .ok (y, k) ∧ (p.tick y ⟨k, .empty⟩).tick = after

theorem reloads {p : Program} {before after : Tick}
    (h : (p.start? "main" [] .empty).any (fun x => (p.tick x .empty).tick = before ∧
      ((p.tick x .empty).execution.save (p.tick x .empty).session.heap).toExcept.toOption.any fun bytes =>
        (p.load bytes .empty).toOption.any fun (y, k) => (p.tick y ⟨k, .empty⟩).tick = after) = true) :
    Reloads p before after := by
  cases start : p.start? "main" [] .empty with
  | none =>
    rw [start] at h
    cases h
  | some x =>
    rw [start] at h
    obtain ⟨first, h⟩ := of_decide_eq_true h
    obtain ⟨bytes, save, h⟩ := ok_of_any h
    obtain ⟨⟨y, k⟩, load, h⟩ := ok_of_any h
    exact ⟨x, bytes, y, k, start, first, save, load, of_decide_eq_true h⟩

/-- What the native raised counts as thrown afterwards, and what was thrown as raised by the interpreter. -/
theorem outcome_recoded :
    ofSource "test" environment "void main() { boom(); }" = .ok raising ∧
    Reloads raising (.faulted ⟨.native 5, ⟨14, 18⟩⟩) (.faulted ⟨.thrown 5, ⟨14, 18⟩⟩) ∧
    ofSource "test" environment "void main() { throw 6000; }" = .ok (throwing 6000 ⟨20, 24⟩) ∧
    Reloads (throwing 6000 ⟨20, 24⟩) (.faulted ⟨.thrown 6000, ⟨14, 19⟩⟩) (.faulted ⟨.divisionByZero, ⟨14, 19⟩⟩) :=
  ⟨compiled_raising, reloads (by decide +kernel), compiled_throwing, reloads (by decide +kernel)⟩

def thrown : RuntimeError := ⟨.thrown 77, ⟨14, 19⟩⟩

theorem outcome_kept_thrown :
    let p := throwing 77 ⟨20, 22⟩
    let x := Execution.begin "test" 0 (thrower 77 ⟨20, 22⟩) []
    let r := p.tick x .empty
    let y := r.execution.requestStop
    r.tick = .faulted thrown ∧ (∀ s, p.tick y s = ⟨.faulted thrown, y, s, [], 0, none⟩) ∧
      ∃ bytes z k, (y.save r.session.heap).toExcept = .ok bytes ∧
        p.load bytes .empty = .ok (z, k) ∧ ∀ s, p.tick z s = ⟨.faulted thrown, z, s, [], 0, none⟩ := by
  intro p x r y
  have first : r.tick = .faulted thrown := by decide +kernel
  have final : r.tick.isFinal = true := by rw [first]; rfl
  have saves : (y.save r.session.heap).toExcept.toOption.any (fun bytes =>
      (p.load bytes .empty).toOption.any fun _ => true) = true := by decide +kernel
  obtain ⟨bytes, save, loads⟩ := ok_of_any saves
  obtain ⟨⟨z, k⟩, load, _⟩ := ok_of_any loads
  obtain ⟨same, reloaded⟩ := outcome_kept p x .empty final y r.session (.stop .refl)
  obtain ⟨answer, answers, again⟩ := reloaded bytes .empty z k save load
  change Answers _ _ r.tick answer at answers
  change ∀ s, _ = TickResult.mk r.tick _ _ _ _ _ at same
  rw [first] at answers same
  cases answers with
  | faulted code span kept =>
    rw [kept.2 (.inl (by decide))] at again
    exact ⟨first, same, bytes, z, k, save, load, again⟩

end Recoded

end Program
end Tickwise
