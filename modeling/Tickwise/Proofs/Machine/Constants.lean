import Tickwise.Proofs.Machine.Adequacy
import Tickwise.Proofs.Storage.Text
set_option autoImplicit false

/-!
# Constants

What constants fold to is what executing the instruction yields, by the same operators on the same operands. Storage
and variables have no part in that, whatever the machine is, and only a frame too many keeps it from ending.
-/
namespace Tickwise

open Exec

/-- The instruction is a tree of operators on literals that folds to a value. -/
inductive Instr.Folds : Instr → Variable → Prop
  | literal {i : Instr} {v : Variable} (form : i.form = .literal v) (scalar : v.value.scalarText?.isSome = true) :
      Folds i v
  | convert {i operand : Instr} {a c : Variable} (form : i.form = .convert .float operand) (inner : Folds operand a)
      (folds : Heap.empty.convert a .float = .ok c) : Folds i c
  | unary {i operand : Instr} {op : UnaryOp} {a c : Variable} (form : i.form = .unary op operand)
      (inner : Folds operand a) (folds : a.unary op = .ok c) : Folds i c
  | binary {i left right : Instr} {op : BinaryOp} {ty : Ty} {a b c : Variable} (form : i.form = .binary op ty left right)
      (first : Folds left a) (second : Folds right b) (folds : Heap.empty.binary op a b ty = .ok c) : Folds i c
  | logical {i left right : Instr} {isAnd x y : Bool} {a b : Variable} (form : i.form = .logical isAnd left right)
      (first : Folds left a) (second : Folds right b) (decides : a.toBool = .ok x) (rest : b.toBool = .ok y) :
      Folds i (Slot.ofBool (if isAnd then x && y else x || y))

namespace Heap

variable {h k : Heap} {v a b c : Variable} {op : BinaryOp} {ty : Ty}

theorem toText_of_scalar (scalar : v.value.scalarText?.isSome = true) : h.toText v = k.toText v := by
  simp only [toText, text, text?_of_scalar scalar]

theorem binary_of_scalar (ha : a.value.scalarText?.isSome = true) (hb : b.value.scalarText?.isSome = true) :
    h.binary op a b ty = k.binary op a b ty := by
  cases ty with
  | string => simp only [binary, toText_of_scalar (h := h) (k := k) ha, toText_of_scalar (h := h) (k := k) hb]
  | _ => rfl

end Heap

theorem Slot.scalar_of_unary {op : UnaryOp} {a c : Variable} (folds : a.unary op = .ok c) :
    c.value.scalarText?.isSome = true := by
  unfold Slot.unary at folds
  split at folds <;> unfold Except.map at folds <;> split at folds <;> cases folds <;> rfl

namespace Instr

variable {i c : Instr} {v : Variable} {room : Nat} {o : Except Interrupt Variable}

theorem Folds.scalar (h : i.Folds v) : v.value.scalarText?.isSome = true := by
  cases h with
  | literal _ scalar => exact scalar
  | @convert _ _ a _ _ _ folds =>
    cases ha : a.toFloat <;>
      simp [Heap.convert, Heap.assign, Heap.convertValue, Slot.fresh, Slot.temp, ha, Except.map] at folds
    subst folds
    rfl
  | unary _ _ folds => exact Slot.scalar_of_unary folds
  | binary _ _ _ folds => exact Heap.scalar_of_binary folds
  | logical => rfl

/-- Executed at a depth with no frame of its own left behind, the instruction ends in one way, whatever the program and
the machine, which stays as it is around it. -/
def Steady (room : Nat) (i : Instr) (o : Except Interrupt Variable) : Prop :=
  ∀ p m, (∀ f ∈ m.deeper.head?, f.node ≠ i.id) → exec p room i m = (o, { m with deeper := [] })

/-- With room for so many frames the instruction yields a value, and with less it overflows the stack. -/
structure Yields (i : Instr) (depth : Nat) (v : Variable) : Prop where
  done : ∀ room, depth ≤ room → i.Steady room (.ok v)
  overflows : ∀ room, room < depth → ∃ span, i.Steady room (.error (.fault ⟨.stackOverflow, span⟩))

theorem Steady.executes (h : i.Steady room o) (p : Program) {m : Machine} (rest : m.deeper = []) :
    Executes p room i m (o, m) := by
  have same : { m with deeper := [] } = m := by rw [← rest]
  have ends := h p m (by rw [rest]; nofun)
  rw [same] at ends
  exact executes_iff.2 ends

theorem Steady.leaf (leaf : i.isLeaf = true) (ends : ∀ m, Exec.leaf i m = (.ok v, m)) : i.Steady room (.ok v) := by
  intro p m _
  have run : settle (Exec.leaf i) m = (.ok v, { m with deeper := [] }) := by
    unfold settle
    rw [ends]
  exact executes_iff.1 ((Executes.of_leaf leaf).2 run.symm)

theorem Steady.overflow (parts : i.isLeaf = false) : i.Steady 0 (.error (.fault ⟨.stackOverflow, i.span⟩)) :=
  fun _ _ _ => executes_iff.1 ((Executes.of_overflow parts).2 rfl)

theorem Steady.frame (parts : i.isLeaf = false) (running : o ≠ .error .suspended)
    (turns : ∀ (p : Program) (m : Machine), m.deeper = [] → ∃ f, Turns (Executes p room) p room i
      { m with frames := Frame.start i.id :: m.frames } (o, { m with frames := f :: m.frames })) :
    i.Steady (room + 1) o := by
  intro p m fresh
  have entered : m.enter? i.id = some { m with frames := Frame.start i.id :: m.frames, deeper := [] } := by
    unfold Machine.enter?
    split
    case h_1 none => rw [← none]
    case h_2 f rest left =>
      rw [left] at fresh
      rw [if_neg (fresh f rfl)]
  obtain ⟨f, turns⟩ := turns p { m with deeper := [] } rfl
  refine executes_iff.1 ((Executes.of_enter parts entered).2 ⟨_, turns, ?_⟩)
  rw [leaveFrame_of_running running]
  rfl

theorem Steady.turn {p : Program} {m : Machine} {follow : Variable → Exec (Option Variable)} (h : c.Steady room o)
    (rest : m.deeper = []) (move : i.move p m.own = .eval c follow) :
    Turn (Executes p room) p room i m ((match o with | .ok v => follow v | .error e => throw e) m) :=
  .child move (h.executes p rest)

variable {left right : Instr} {depth depth' : Nat} {a b : Variable} {first second : Variable → Exec (Option Variable)}

theorem Steady.overflow_part {span : Span} (parts : i.isLeaf = false)
    (h : left.Steady room (.error (.fault ⟨.stackOverflow, span⟩)))
    (start : ∀ p, i.move p (.start i.id) = .eval left first) :
    i.Steady (room + 1) (.error (.fault ⟨.stackOverflow, span⟩)) := by
  refine .frame parts nofun fun p m rest => ⟨.start i.id, .left ?_⟩
  exact h.turn (m := { m with frames := .start i.id :: m.frames }) rest (start p)

theorem Yields.single (parts : i.isLeaf = false) (h : left.Yields depth a)
    (start : ∀ p, i.move p (.start i.id) = .eval left first) (ends : ∀ m, first a m = (.ok (some v), m)) :
    i.Yields (depth + 1) v := by
  constructor
  · intro room enough
    obtain _ | room := room
    · omega
    refine .frame parts nofun fun p m rest => ⟨.start i.id, .done ?_⟩
    have turn := (h.done room (by omega)).turn (m := { m with frames := .start i.id :: m.frames }) rest (start p)
    dsimp only at turn
    rwa [ends] at turn
  · intro room less
    cases room with
    | zero => exact ⟨_, .overflow parts⟩
    | succ room =>
      obtain ⟨span, spent⟩ := h.overflows room (by omega)
      exact ⟨span, .overflow_part parts spent start⟩

theorem Yields.pair {f : Frame Variable} (parts : i.isLeaf = false) (hl : left.Yields depth a)
    (hr : right.Yields depth' b) (start : ∀ p, i.move p (.start i.id) = .eval left first)
    (goes : ∀ (m : Machine) fs, first a { m with frames := .start i.id :: fs } = (.ok none, { m with frames := f :: fs }))
    (next : ∀ p, i.move p f = .eval right second)
    (ends : ∀ (m : Machine) fs, second b { m with frames := f :: fs } = (.ok (some v), { m with frames := f :: fs })) :
    i.Yields (max depth depth' + 1) v := by
  have through {room : Nat} (enough : depth ≤ room) {p : Program} {m : Machine} {r : Result Variable}
      (rest : m.deeper = []) (turns : Turns (Executes p room) p room i { m with frames := f :: m.frames } r) :
      Turns (Executes p room) p room i { m with frames := .start i.id :: m.frames } r := by
    have turn := (hl.done room enough).turn (m := { m with frames := .start i.id :: m.frames }) rest (start p)
    dsimp only at turn
    rw [goes] at turn
    exact .next turn turns
  constructor
  · intro room enough
    obtain _ | room := room
    · omega
    refine .frame parts nofun fun p m rest => ⟨f, through (by omega) rest (.done ?_)⟩
    have turn := (hr.done room (by omega)).turn (m := { m with frames := f :: m.frames }) rest (next p)
    dsimp only at turn
    rwa [ends] at turn
  · intro room less
    obtain _ | room := room
    · exact ⟨_, .overflow parts⟩
    by_cases enough : depth ≤ room
    · obtain ⟨span, spent⟩ := hr.overflows room (by omega)
      refine ⟨span, .frame parts nofun fun p m rest => ⟨f, through enough rest (.left ?_)⟩⟩
      exact spent.turn (m := { m with frames := f :: m.frames }) rest (next p)
    · obtain ⟨span, spent⟩ := hl.overflows room (by omega)
      exact ⟨span, .overflow_part parts spent start⟩

theorem finish_check {m : Machine} {r : Except Fault Variable} (span : Span) (h : r = .ok v) :
    finish (check span r) m = (.ok (some v), m) := by
  subst h
  rfl

theorem finish_checkCrash {m : Machine} {crash? : Heap → Option Crash} {f : Heap → Except Fault Variable} (span : Span)
    (none : crash? m.heap = none) (h : f m.heap = .ok v) : finish (checkCrash span crash? f) m = (.ok (some v), m) := by
  have same : checkCrash span crash? f m = check span (f m.heap) m := by
    rw [checkCrash_apply, none]
    rfl
  unfold finish
  rw [bind_apply, same, h]
  rfl

theorem finish_operate {m : Machine} {op : BinaryOp} {ty : Ty} (span : Span)
    (left : a.value.scalarText?.isSome = true) (right : b.value.scalarText?.isSome = true)
    (h : m.heap.binary op a b ty = .ok v) : finish (operate span op a b ty) m = (.ok (some v), m) := by
  refine finish_checkCrash span ?_ h
  rw [Heap.crash?_of_scalar left, Heap.crash?_of_scalar right]
  exact ite_self none

theorem Folds.logical_yields {isAnd x y : Bool} (form : i.form = .logical isAnd left right) (hl : left.Yields depth a)
    (hr : right.Yields depth' b) (decides : a.toBool = .ok x) (rest : b.toBool = .ok y) :
    ∃ depth, i.Yields depth (Slot.ofBool (if isAnd then x && y else x || y)) := by
  have parts : i.isLeaf = false := by
    rw [isLeaf, form]
    rfl
  have move (p : Program) (f : Frame Variable) : i.move p f = .ofLogical i.span isAnd left right f := by
    unfold Instr.move
    rw [form]
    rfl
  have start (p : Program) := move p (.start i.id)
  by_cases same : x = isAnd
  · refine ⟨_, .pair (f := { Frame.start i.id with state := 1 }) parts hl hr start (fun m fs => ?_) (move · _)
      fun m fs => ?_⟩
    · rw [decides, same]
      cases isAnd <;> rfl
    · rw [rest, same]
      cases isAnd <;> cases y <;> rfl
  · obtain rfl : x = !isAnd := Bool.eq_not.2 same
    refine ⟨_, .single parts hl start fun m => ?_⟩
    rw [decides]
    cases isAnd <;> rfl

theorem Folds.yields (h : i.Folds v) : ∃ depth, i.Yields depth v := by
  induction h with
  | @literal i v form =>
    refine ⟨0, fun _ _ => .leaf ?_ fun m => ?_, nofun⟩
    · rw [isLeaf, form]
      rfl
    · unfold Exec.leaf
      rw [form]
      rfl
  | @convert i operand a c form inner folds ih =>
    obtain ⟨depth, yields⟩ := ih
    refine ⟨_, .single (by rw [isLeaf, form]; rfl) yields (fun p => by unfold move; rw [form]; rfl) fun m => ?_⟩
    exact finish_checkCrash (f := (·.convert a .float)) i.span (Heap.crash?_of_scalar inner.scalar) folds
  | unary form inner folds ih =>
    obtain ⟨depth, yields⟩ := ih
    refine ⟨_, .single (by rw [isLeaf, form]; rfl) yields (fun p => by unfold move; rw [form]; rfl) fun m => ?_⟩
    exact finish_check _ folds
  | @binary i left right op ty a b c form first second folds ihl ihr =>
    obtain ⟨depth, hl⟩ := ihl
    obtain ⟨depth', hr⟩ := ihr
    refine ⟨_, .pair (f := { Frame.start i.id with state := 1, operands := [a] }) (by rw [isLeaf, form]; rfl) hl hr
      (fun p => by unfold move; rw [form]; rfl) (fun m fs => rfl) (fun p => by unfold move; rw [form]; rfl)
      fun m fs => ?_⟩
    rw [Heap.binary_of_scalar (k := m.heap) first.scalar second.scalar] at folds
    exact finish_operate i.span first.scalar second.scalar folds
  | @logical i left right isAnd x y a b form first second decides rest ihl ihr =>
    obtain ⟨depth, hl⟩ := ihl
    obtain ⟨depth', hr⟩ := ihr
    exact logical_yields form hl hr decides rest

end Instr
end Tickwise
