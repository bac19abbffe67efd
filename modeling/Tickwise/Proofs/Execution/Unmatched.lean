import Tickwise.Compile.Unit
import Tickwise.Proofs.Compile.Comparison
import Tickwise.Proofs.Execution.Outcome
set_option autoImplicit false

/-!
# Faults that no clause catches

While the filters of a `try` execute, the fault of its body is kept as integers among the operands of its
frame. If no filter matches, it is made again from them: the fault of a native as it was, and each other one
from its code alone.
-/
namespace Tickwise

open Exec

/-- The fault that is made again of one that was kept. -/
def Fault.kept : Fault → Fault
  | native c => native c
  | fault => ofCode fault.code

def RuntimeError.kept (e : RuntimeError) : RuntimeError := ⟨e.fault.kept, e.span⟩

/-- A filter of this value does not catch a code. -/
def Slot.Misses {ρ : Type} (v : Slot ρ) (code : Int32) : Prop :=
  if v.ty = .bool then v.toBool = .ok false else ∃ n, v.toInt = .ok n ∧ n ≠ code

/-- Parts of an instruction that were executed to an end, with their outcomes, in the order of time. -/
abbrev Parts := List (Instr × Except Interrupt Variable)

/-- What an instruction does in its frame, from its start on, and the parts that ended. A part that is
suspended takes the instruction off the stack, and it goes on later from the frame that it left, whatever else
has changed. `back` is the machine from which it was executed last, with so much room, and the last machine is
the one that it has come to. -/
inductive Courses (p : Program) (i : Instr) :
    Parts → (room : Nat) → (back : Machine) → Machine → Prop
  | start {room : Nat} {back inside : Machine} (entered : back.enter? i.id = some inside)
      (first : inside.own.bare = (Frame.start i.id).bare) : Courses p i [] room back inside
  | part {ended : Parts} {room : Nat} {back m m' m'' : Machine}
      {c : Instr} {follow : Except Interrupt Variable → Exec (Option Variable)}
      {o : Except Interrupt Variable} (before : Courses p i ended room back m)
      (move : i.move p m.own = .run c follow) (ends : exec p room c m = (o, m'))
      (running : o ≠ .error .suspended) (more : follow o m' = (.ok none, m'')) :
      Courses p i (ended ++ [(c, o)]) room back m''
  | itself {ended : Parts} {room : Nat} {back m m' : Machine}
      (before : Courses p i ended room back m) (alone : ∀ c follow, i.move p m.own ≠ .run c follow)
      (more : turn (exec p room) p room i m = (.ok none, m')) : Courses p i ended room back m'
  | again {ended : Parts} {room room' : Nat}
      {back m m' back' inside : Machine} (before : Courses p i ended room back m)
      (suspended : turn (exec p room) p room i m = (.error .suspended, m'))
      (entered : back'.enter? i.id = some inside) (same : inside.own.bare = m'.own.bare) :
      Courses p i ended room' back' inside

namespace Fault

theorem code_kept (f : Fault) : f.kept.code = f.code := by
  cases f with
  | native c => rfl
  | thrown c => exact code_ofCode _
  | _ => rfl

theorem kept_eq_iff (f : Fault) : f.kept = f ↔ ∀ c, f = thrown c → c < 6000 ∨ 6010 < c := by
  cases f with
  | native c => exact iff_of_true rfl nofun
  | thrown c =>
    refine (ofCode_code_iff (thrown c)).trans ⟨fun outside c' same => ?_, fun outside => outside c rfl⟩
    cases same
    exact outside
  | _ => exact iff_of_true rfl nofun

end Fault

theorem RuntimeError.kept_eq_iff (e : RuntimeError) :
    e.kept = e ↔ ∀ c, e.fault = .thrown c → c < 6000 ∨ 6010 < c := by
  rw [← e.fault.kept_eq_iff]
  constructor
  · exact congrArg RuntimeError.fault
  · intro same
    rw [kept, same]

theorem Exec.operandsFault_faultOperands (e : RuntimeError) : operandsFault (faultOperands e) = e.kept := by
  obtain ⟨fault, start, stop⟩ := e
  cases fault <;> rfl

theorem Exec.caughtCode?_faultOperands (e : RuntimeError) : caughtCode? (faultOperands e) = some e.fault.code := rfl

theorem Exec.catches_of_misses {v : Variable} {code : Int32} (h : v.Misses code) (span : Span) (m : Machine) :
    catches span v code m = (.ok false, m) := by
  unfold Slot.Misses at h
  unfold catches
  split at h
  · rw [if_pos ‹_›, h]
    rfl
  · obtain ⟨n, int, other⟩ := h
    rw [if_neg ‹_›, int]
    change (Except.ok (decide (n = code)), m) = _
    rw [decide_eq_false other]

variable {p : Program} {i body : Instr} {cs : List (Catch Instr)} {e : RuntimeError} {room : Nat}
  {back m : Machine}

theorem Instr.move_body (form : i.form = .tryCatch body cs) {f : Frame Variable} (h : f.state = 0) :
    i.move p f = .run body attempt := by
  rw [Instr.move_tryCatch form, Move.ofTry, if_pos h]

structure Frame.Retains (f : Frame Variable) (e : RuntimeError) (missed : Nat) : Prop where
  state : f.state = 1
  index : f.index = missed
  operands : f.operands = faultOperands e

namespace Frame.Retains

variable {f g : Frame Variable} {missed : Nat}

theorem congr (h : f.Retains e missed) (same : g.bare = f.bare) : g.Retains e missed :=
  ⟨(congrArg Frame.state same).trans h.state, (congrArg Frame.index same).trans h.index,
    (congrArg Frame.operands same).trans h.operands⟩

theorem itemAt?_eq {α : Type} (items : List α) (h : f.Retains e missed) : itemAt? items f.index = items[missed]? := by
  unfold itemAt?
  rw [h.index, if_neg (by omega), Int.toNat_natCast]

theorem move_filter (h : f.Retains e missed) (form : i.form = .tryCatch body cs) {c : Catch Instr}
    (next : cs[missed]? = some c) : i.move p f = .eval c.filter (fun v => do
      if ← catches c.filter.span v e.fault.code then goOn (setPosition 2 f.index) else goOn (nextIndex 1)) := by
  rw [Instr.move_tryCatch form, Move.ofTry, h.state, if_neg (by decide), h.operands,
    caughtCode?_faultOperands, h.itemAt?_eq, next]
  rfl

theorem move_end (h : f.Retains e missed) (form : i.form = .tryCatch body cs) (last : cs[missed]? = none) :
    i.move p f = .act (throw (.fault e.kept)) := by
  rw [Instr.move_tryCatch form, Move.ofTry, h.state, if_neg (by decide), h.operands,
    caughtCode?_faultOperands, h.itemAt?_eq, last, operandsFault_faultOperands]

end Frame.Retains

theorem Exec.retains_of_attempt {m' : Machine} (framed : m.frames ≠ [])
    (h : attempt (.error (.fault e)) m = (.ok none, m')) : m'.own.Retains e 0 := by
  unfold attempt at h
  dsimp only at h
  split at h
  · cases h
  · obtain ⟨_ | ⟨own, frames⟩, _⟩ := m
    · exact absurd rfl framed
    · cases h
      exact ⟨rfl, rfl, rfl⟩

theorem Exec.retains_of_missed {m' : Machine} {v : Variable} {missed : Nat} {span : Span} (framed : m.frames ≠ [])
    (keeps : m.own.Retains e missed) (misses : v.Misses e.fault.code) {found : Exec (Option Variable)}
    (h : (do if ← catches span v e.fault.code then found else goOn (nextIndex 1)) m = (.ok none, m')) :
    m'.own.Retains e (missed + 1) := by
  rw [bind_apply, catches_of_misses misses] at h
  obtain ⟨_ | ⟨own, frames⟩, _⟩ := m
  · exact absurd rfl framed
  · cases h
    exact ⟨rfl, congrArg (· + 1) keeps.index, keeps.operands⟩

theorem Exec.suspended_of_run {m' : Machine} {c : Instr}
    {follow : Except Interrupt Variable → Exec (Option Variable)} (move : i.move p m.own = .run c follow)
    (h : turn (exec p room) p room i m = (.error .suspended, m')) : exec p room c m = (.error .suspended, m') := by
  have plain := i.move_isPlain p m.own
  rw [turn_run move] at h
  rw [move] at plain
  generalize exec p room c m = r at h ⊢
  obtain ⟨o, m₁⟩ := r
  by_cases ho : o = .error .suspended
  · rw [ho, plain.1] at h
    cases h
    rw [ho]
  · exact absurd (congrArg Prod.fst h) ((plain.2 o ho fun _ _ _ _ => trivial).ne_suspended m₁)

namespace Courses

variable {ended missed : Parts}

/-- What a `try` that came to abort keeps. The body ends first, and all that ends after it are filters. -/
def Kept (body : Instr) (e : RuntimeError) (f : Frame Variable) : Parts → Prop
  | [] => f.state = 0
  | first :: missed => first = (body, .error (.fault e)) →
      (∀ filter ∈ missed, ∃ v, filter.2 = .ok v ∧ v.Misses e.fault.code) → f.Retains e missed.length

theorem Kept.congr {f g : Frame Variable} (h : Kept body e f ended) (same : g.bare = f.bare) :
    Kept body e g ended := by
  cases ended with
  | nil => exact (congrArg Frame.state same).trans h
  | cons first missed => exact fun aborted missing => (h aborted missing).congr same

theorem kept (form : i.form = .tryCatch body cs) (course : Courses p i ended room back m) :
    m.frames ≠ [] ∧ Kept body e m.own ended := by
  induction course with
  | start entered first =>
    obtain ⟨f, deeper, _, _, rfl⟩ := Machine.enter?_frames entered
    exact ⟨List.cons_ne_nil _ _, congrArg Frame.state first⟩
  | @part ended room back m m' m'' c follow o before move ends running more ih =>
    obtain ⟨framed, keeps⟩ := ih
    have around : m.Around (o, m').2 := (executes_iff.2 ends).around
    have framed' := around.frames_ne_nil framed
    have same := around.own
    have plain := i.move_isPlain p m.own
    rw [move] at plain
    have inside := (plain.2 o running fun _ _ _ _ => trivial).inside m'
    rw [more] at inside
    refine ⟨(inside.own_kind framed').1, ?_⟩
    cases ended with
    | nil =>
      cases move.symm.trans (i.move_body form keeps)
      intro aborted _
      cases aborted
      exact retains_of_attempt framed' more
    | cons first missed =>
      change first = _ → (∀ filter ∈ missed ++ [(c, o)], _) → m''.own.Retains e (missed ++ [(c, o)]).length
      rw [List.length_append, List.forall_mem_append, List.forall_mem_singleton]
      rintro aborted ⟨missing, v, rfl, misses⟩
      have kept := keeps aborted missing
      cases next : cs[missed.length]? with
      | none => cases move.symm.trans (kept.move_end form next)
      | some filter =>
        cases move.symm.trans (kept.move_filter form next)
        exact retains_of_missed framed' (kept.congr same) misses more
  | @itself ended room back m m' before alone more ih =>
    obtain ⟨framed, keeps⟩ := ih
    cases ended with
    | nil => exact absurd (i.move_body form keeps) (alone _ _)
    | cons first missed =>
      have inside := (turn_eq_iff.1 more).inside fun c m r hr => (executes_iff.2 hr).around
      refine ⟨(inside.own_kind framed).1, fun aborted missing => ?_⟩
      have kept := keeps aborted missing
      cases next : cs[missed.length]? with
      | none =>
        rw [turn_apply, kept.move_end form next] at more
        cases more
      | some filter => exact absurd (kept.move_filter form next) (alone _ _)
  | @again ended room room' back m m' back' inside before suspended entered same ih =>
    obtain ⟨framed, keeps⟩ := ih
    obtain ⟨f, deeper, _, _, rfl⟩ := Machine.enter?_frames entered
    refine ⟨List.cons_ne_nil _ _, ?_⟩
    have part {c : Instr} {follow : Except Interrupt Variable → Exec (Option Variable)}
        (move : i.move p m.own = .run c follow) : m'.own.bare = m.own.bare :=
      (executes_iff.2 (suspended_of_run move suspended)).around.own
    cases ended with
    | nil => exact Kept.congr keeps (same.trans (part (i.move_body form keeps)))
    | cons first missed =>
      intro aborted missing
      have kept := keeps aborted missing
      cases next : cs[missed.length]? with
      | none =>
        rw [turn_apply, kept.move_end form next] at suspended
        cases suspended
      | some filter => exact kept.congr (same.trans (part (kept.move_filter form next)))

theorem exec_eq (course : Courses p i ended room back m) (hl : i.isLeaf = false) {r : Result Variable}
    (ends : Turns (Executes p room) p room i m r) : exec p (room + 1) i back = leaveFrame r := by
  obtain ⟨inside, entered, turns⟩ : ∃ inside, back.enter? i.id = some inside ∧
      Turns (Executes p room) p room i inside r := by
    induction course with
    | start entered first => exact ⟨_, entered, ends⟩
    | part before move part running more ih =>
      refine ih (.next ((turn_eq_iff.1 ?_).mono fun _ _ _ => executes_iff.2) ends)
      rw [turn_run move, part]
      exact more
    | itself before alone more ih =>
      exact ih (.next ((turn_eq_iff.1 more).mono fun _ _ _ => executes_iff.2) ends)
    | again before suspended entered same ih => exact ⟨_, entered, ends⟩
  exact executes_iff.1 ((Executes.of_enter hl entered).2 ⟨r, turns, rfl⟩)

/-- If the body of a `try` aborts and all its filters finish without matching, whatever was suspended
meanwhile, then it aborts: with the fault of the body, unless a code was thrown that stands for a fault of the
interpreter, which it is then. Code and place are those of the body in any case. -/
theorem unmatched_try (form : i.form = .tryCatch body cs) (course : Courses p i
      ((body, .error (.fault e)) :: missed) room back m)
    (missing : List.Forall₂ (fun c filter => ∃ v, filter = (c.filter, .ok v) ∧ v.Misses e.fault.code) cs missed) :
    exec p (room + 1) i back = (.error (.fault e.kept), m.leave) ∧
      (e.kept = e ↔ ∀ c, e.fault = .thrown c → c < 6000 ∨ 6010 < c) ∧
      e.kept.fault.code = e.fault.code ∧ e.kept.span = e.span := by
  have all : ∀ filter ∈ missed, ∃ v, filter.2 = .ok v ∧ v.Misses e.fault.code := by
    intro filter mem
    obtain ⟨_, _, v, rfl, misses⟩ := forall₂_exists_left missing mem
    exact ⟨v, rfl, misses⟩
  have kept := (course.kept form).2 rfl all
  have last : cs[missed.length]? = none := by
    rw [List.getElem?_eq_none_iff, missing.length_eq]
  refine ⟨?_, e.kept_eq_iff, e.fault.code_kept, rfl⟩
  have throws : turn (exec p room) p room i m = (.error (.fault e.kept), m) := by
    rw [turn_apply, kept.move_end form last]
    rfl
  have hl : i.isLeaf = false := by
    rw [Instr.isLeaf, form]
    rfl
  exact course.exec_eq hl (.left ((turn_eq_iff.1 throws).mono fun _ _ _ => executes_iff.2))

/-!
The body throws a code, and the only filter is 1. In the first tick there is no step left for the body.
-/
namespace Rethrown

def thrower (code : Int32) : Instr :=
  .mk 2 ⟨18, 19⟩ (.block [.mk 1 ⟨20, 25⟩ (.throw (.mk 0 ⟨26, 30⟩ (.literal (Slot.ofInt code))))])

def clause : Catch Instr := ⟨.mk 3 ⟨41, 42⟩ (.literal (Slot.ofInt 1)), .mk 4 ⟨44, 45⟩ (.block [])⟩

def statement (code : Int32) : Instr := .mk 5 ⟨14, 17⟩ (.tryCatch (thrower code) [clause])

def program (code : Int32) : Program :=
  ⟨"test", [⟨0, "main", [], .void, .mk 6 ⟨12, 13⟩ (.block [statement code]), false, ⟨5, 9⟩⟩], [], 7, .empty⟩

def thrown (code : Int32) : RuntimeError := ⟨.thrown code, ⟨20, 25⟩⟩

def machine (deeper : List (Frame Variable)) (budget : Nat) : Machine :=
  ⟨[], deeper, .empty, .empty, budget, 0, false⟩

def resumed (code : Int32) : Machine :=
  machine (exec (program code) 4 (statement code) (machine [] 0)).2.deeper 1

theorem courses (code : Int32) (other : (1 : Int32) ≠ code) :
    ∃ m, Courses (program code) (statement code)
      [(thrower code, .error (.fault (thrown code))), (clause.filter, .ok (Slot.ofInt 1))] 3 (resumed code) m := by
  have first : Courses (program code) (statement code) [] 3 (machine [] 0) _ := .start rfl rfl
  have second : Courses (program code) (statement code) [] 3 (resumed code) _ :=
    first.again (Prod.ext rfl rfl) rfl rfl
  have aborted : Courses (program code) (statement code) [(thrower code, .error (.fault (thrown code)))] 3
      (resumed code) _ := second.part rfl (Prod.ext rfl rfl) nofun (Prod.ext rfl rfl)
  refine ⟨_, aborted.part rfl (Prod.ext rfl rfl) nofun (Prod.ext ?_ rfl)⟩
  have misses : (Slot.ofInt 1 : Variable).Misses (thrown code).fault.code := ⟨1, rfl, other⟩
  dsimp only
  rw [bind_apply, catches_of_misses misses]
  rfl

theorem unmatched_try_paused : ∃ m,
    Courses (program 7000) (statement 7000)
      [(thrower 7000, .error (.fault (thrown 7000))), (clause.filter, .ok (Slot.ofInt 1))] 3 (resumed 7000) m ∧
    exec (program 7000) 4 (statement 7000) (resumed 7000) = (.error (.fault (thrown 7000)), m.leave) := by
  obtain ⟨m, course⟩ := courses 7000 (by decide)
  obtain ⟨ends, same, _⟩ := unmatched_try rfl course (.cons ⟨_, rfl, 1, rfl, by decide⟩ .nil)
  have kept : (thrown 7000).kept = thrown 7000 := same.2 fun c hc => by
    cases hc
    exact .inr (by decide)
  rw [kept] at ends
  exact ⟨m, course, ends⟩

theorem compiled : Program.ofSource "test" .empty "void main() { try { throw 6000; } catch (1) { } }" =
    .ok (program 6000) :=
  Program.ofSource_eq 20 (by decide +kernel) rfl

def nested : Program :=
  let inner : Instr := .mk 2 ⟨24, 25⟩
    (.block [.mk 1 ⟨26, 31⟩ (.throw (.mk 0 ⟨32, 36⟩ (.literal (Slot.ofInt 6007))))])
  let caught : Catch Instr := ⟨.mk 3 ⟨47, 48⟩ (.literal (Slot.ofInt 1)), .mk 4 ⟨50, 51⟩ (.block [])⟩
  let outer : Instr := .mk 6 ⟨18, 19⟩ (.block [.mk 5 ⟨20, 23⟩ (.tryCatch inner [caught])])
  let all : Catch Instr := ⟨.mk 7 ⟨63, 67⟩ (.literal (Slot.ofInt 6007)), .mk 8 ⟨69, 70⟩ (.block [])⟩
  let statement : Instr := .mk 9 ⟨14, 17⟩ (.tryCatch outer [all])
  ⟨"test", [⟨0, "main", [], .void, .mk 10 ⟨12, 13⟩ (.block [statement]), false, ⟨5, 9⟩⟩], [], 11, .empty⟩

theorem compiled_nested : Program.ofSource "test" .empty
    "void main() { try { try { throw 6007; } catch (1) { } } catch (6007) { } }" = .ok nested :=
  Program.ofSource_eq 20 (by decide +kernel) rfl

def outcome? (p : Program) : Option Tick := (p.start? "main" [] .empty).map fun x => (p.tick x .empty).tick

/-- A code that is thrown and that no clause catches leads to another fault: 6000 to a division by zero, and 6007
to a stop, which passes the clause around that is for this code. -/
theorem unmatched_try_recoded :
    Program.ofSource "test" .empty "void main() { try { throw 6000; } catch (1) { } }" = .ok (program 6000) ∧
    (∃ m, Courses (program 6000) (statement 6000)
      [(thrower 6000, .error (.fault (thrown 6000))), (clause.filter, .ok (Slot.ofInt 1))] 3 (resumed 6000) m) ∧
    (exec (program 6000) 4 (statement 6000) (resumed 6000)).1 = .error (.fault ⟨.divisionByZero, ⟨20, 25⟩⟩) ∧
    outcome? (program 6000) = some (.faulted ⟨.divisionByZero, ⟨20, 25⟩⟩) ∧
    Program.ofSource "test" .empty "void main() { try { try { throw 6007; } catch (1) { } } catch (6007) { } }" =
      .ok nested ∧
    outcome? nested = some (.faulted ⟨.stopped, ⟨26, 31⟩⟩) :=
  ⟨compiled, courses 6000 (by decide), by decide +kernel, by decide +kernel, compiled_nested, by decide +kernel⟩

end Rethrown

end Courses
end Tickwise
