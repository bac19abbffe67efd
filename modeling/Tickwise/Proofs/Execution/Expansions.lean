import Tickwise.Proofs.Compile.Constants
import Tickwise.Proofs.Machine.Overflow
set_option autoImplicit false

/-!
# An assignment by an operator and its expansion

`x op= e` evaluates `e` and then reads `x`; `x = x op (e)` reads `x` first, converts `e` where the operator wants a
float and has up to two more frames around `e`. Where `e` does not assign to `x` both come to the same, tick after tick.
-/
namespace Tickwise

open Exec

/-- The right operand as an operator takes it: the expression itself, or its conversion. The identities are those of the
conversions. -/
inductive Instr.Operates (target : Ty) (e : Instr) : List NodeId → Instr → Prop
  | same : Operates target e [] e
  | converted {i : Instr} (float : target = .float) (form : i.form = .convert .float e) : Operates target e [i.id] i

/-- An assignment by an operator to a variable, and the assignment of what the operator yields from the variable and
the operand. -/
structure Expansion (place : Place Instr) (i j : Instr) where
  op : BinaryOp
  value : Instr
  sum : Instr
  old : Instr
  right : Instr
  value' : Instr
  conversions : List NodeId
  whole : place.path = []
  compound : i.form = .store place (some op) place.ty value
  assigns : j.form = .store place none place.ty sum
  computes : sum.form = .binary op place.ty old right
  reads : old.form = .load place
  twin : value.Twin value'
  operates : value'.Operates place.ty conversions right

variable {p : Program} {room : Nat} {i j c : Instr} {m m' : Machine} {place : Place Instr}

namespace Exec

theorem exec_of_finish {inside : Machine} {c : Exec Variable} {n : Machine} (parts : i.isLeaf = false)
    (entered : m.enter? i.id = some inside) (passes : Passes p room i inside m')
    (last : turn (exec p room) p room i m' = finish c n) : exec p (room + 1) i m = leaveFrame (c n) := by
  have ended : Turns (Executes p room) p room i m' (c n) := by
    unfold finish at last
    rw [bind_apply] at last
    generalize c n = r at last ⊢
    obtain ⟨e | v, m''⟩ := r
    · exact .left (Turn.executes_iff.2 last)
    · exact .done (Turn.executes_iff.2 last)
  have turns : Turns (Executes p room) p room i inside (c n) := by
    clear entered last
    induction passes with
    | here => exact ended
    | next first _ ih => exact .next (Turn.executes_iff.2 first) (ih ended)
  exact executes_iff.1 ((Executes.of_enter parts entered).2 ⟨_, turns, rfl⟩)

def after (k : Variable → Exec Variable) : Result Variable → Result Variable
  | (.ok v, m) => leaveFrame (k v m)
  | (.error e, m) => leaveFrame (.error e, m)

theorem exec_of_eval {inside : Machine} {k : Variable → Exec Variable} (entered : m.enter? i.id = some inside)
    (passes : Passes p room i inside m') (move : i.move p m'.own = .eval c fun v => finish (k v)) :
    exec p (room + 1) i m = after k (exec p room c m') := by
  have last : turn (exec p room) p room i m' = finish (fun n => match exec p room c n with
      | (.ok v, n') => k v n'
      | (.error e, n') => (.error e, n')) m' := by
    rw [turn_run move]
    unfold finish
    rw [bind_apply]
    rcases exec p room c m' with ⟨e | v, m''⟩
    · rfl
    · exact bind_apply ..
  rw [exec_of_finish (Instr.isLeaf_of_run move) entered passes last]
  rcases exec p room c m' with ⟨e | v, m''⟩ <;> rfl

end Exec

/-!
## One tick
-/

def Spot.last (operands : List Variable) : Spot := ⟨1, 0, operands⟩

theorem move_store {op : Option BinaryOp} {ty : Ty} {e : Instr} (form : i.form = .store place op ty e)
    (whole : place.path = []) (p : Program) (node : NodeId) :
    i.move p ((Spot.mk 0 0 []).frame node) = .act (goOn (setPosition 1 0)) ∧
      i.move p ((Spot.last []).frame node) = .eval e fun v => finish (assign i.span place op ty v) := by
  have none : place.indices = [] := by
    unfold Place.indices
    rw [whole]
    rfl
  unfold Instr.move
  rw [form]
  refine ⟨?_, rfl⟩
  change Move.collect place.indices 0 _ = _
  rw [none]
  rfl

theorem exec_store {op : Option BinaryOp} {ty : Ty} {e : Instr} (form : i.form = .store place op ty e)
    (whole : place.path = []) (core : Machine) (top ds : List (Frame Variable)) :
    exec p (room + 1) i (core.topped top []) =
        after (assign i.span place op ty) (exec p room e (core.topped ((Spot.last []).frame i.id :: top) [])) ∧
      exec p (room + 1) i (core.topped top ((Spot.last []).frame i.id :: ds)) =
        after (assign i.span place op ty) (exec p room e (core.topped ((Spot.last []).frame i.id :: top) ds)) := by
  obtain ⟨start, last⟩ := move_store form whole p i.id
  refine ⟨?_, exec_of_eval (enter?_topped ..) .here last⟩
  have entered : (core.topped top []).enter? i.id = some (core.topped ((Spot.mk 0 0 []).frame i.id :: top) []) := rfl
  have first : turn (exec p room) p room i (core.topped ((Spot.mk 0 0 []).frame i.id :: top) []) =
      (.ok none, core.topped ((Spot.last []).frame i.id :: top) []) :=
    turn_act (m := core.topped ((Spot.mk 0 0 []).frame i.id :: top) []) start
  exact exec_of_eval entered (.next first .here) last

theorem exec_operator {sum old right : Instr} {op : BinaryOp} {ty : Ty} {v : Variable}
    (form : sum.form = .binary op ty old right) (reads : old.form = .load place) (whole : place.path = [])
    (core : Machine)
    (top ds : List (Frame Variable)) (blank : ∀ f ∈ top, f.Blank)
    (found : Frame.findVar? place.root core.frames = some v) (init : v.isInit = true) :
    exec p (room + 1) sum (core.topped top []) =
        after (binary sum.span op ty)
          (exec p room right (core.topped ((Spot.last [v.toTemp]).frame sum.id :: top) [])) ∧
      exec p (room + 1) sum (core.topped top ((Spot.last [v.toTemp]).frame sum.id :: ds)) =
        after (binary sum.span op ty)
          (exec p room right (core.topped ((Spot.last [v.toTemp]).frame sum.id :: top) ds)) := by
  have start : sum.move p ((Spot.mk 0 0 []).frame sum.id) =
      .eval old fun v => goOn (do pushOperand v; setPosition 1 0) := by
    unfold Instr.move
    rw [form]
    rfl
  have last : sum.move p ((Spot.last [v.toTemp]).frame sum.id) =
      .eval right fun v => finish (binary sum.span op ty v) := by
    unfold Instr.move
    rw [form]
    rfl
  refine ⟨?_, exec_of_eval (enter?_topped ..) .here last⟩
  have entered : (core.topped top []).enter? sum.id = some (core.topped ((Spot.mk 0 0 []).frame sum.id :: top) []) :=
    rfl
  have read : exec p room old (core.topped ((Spot.mk 0 0 []).frame sum.id :: top) []) =
      (.ok v.toTemp, core.topped ((Spot.mk 0 0 []).frame sum.id :: top) []) := by
    have whole' : old.isLeaf = true := by
      unfold Instr.isLeaf
      rw [reads]
      exact List.isEmpty_iff.2 whole
    have inSight : (core.topped ((Spot.mk 0 0 []).frame sum.id :: top) []).findVar? place.root = some v :=
      (Machine.findVar?_topped (List.forall_mem_cons.2 ⟨Spot.blank .., blank⟩)).trans found
    rw [exec_of_leaf whole']
    unfold leaf
    rw [reads]
    dsimp only
    unfold settle
    rw [(Machine.provides_of_found old.span inSight whole).read, if_pos init]
    rfl
  have first : turn (exec p room) p room sum (core.topped ((Spot.mk 0 0 []).frame sum.id :: top) []) =
      (.ok none, core.topped ((Spot.last [v.toTemp]).frame sum.id :: top) []) := by
    rw [turn_run (m := core.topped ((Spot.mk 0 0 []).frame sum.id :: top) []) start, read]
    rfl
  exact exec_of_eval entered (.next first .here) last

theorem exec_convert {e : Instr} {target : Ty} (form : i.form = .convert target e) (core : Machine)
    (top ds : List (Frame Variable)) :
    exec p (room + 1) i (core.topped top []) = after (convert i.span · target)
        (exec p room e (core.topped ((Spot.mk 0 0 []).frame i.id :: top) [])) ∧
      exec p (room + 1) i (core.topped top ((Spot.mk 0 0 []).frame i.id :: ds)) =
        after (convert i.span · target) (exec p room e (core.topped ((Spot.mk 0 0 []).frame i.id :: top) ds)) := by
  have last : i.move p ((Spot.mk 0 0 []).frame i.id) = .eval e fun v => finish (convert i.span v target) := by
    unfold Instr.move
    rw [form]
    rfl
  have entered : (core.topped top []).enter? i.id = some (core.topped ((Spot.mk 0 0 []).frame i.id :: top) []) := rfl
  exact ⟨exec_of_eval entered .here last, exec_of_eval (enter?_topped ..) .here last⟩

namespace Exec

variable {k : Variable → Exec Variable} {core : Machine} {f : Frame Variable} {top ds : List (Frame Variable)}

theorem after_error {e : Interrupt} (running : e ≠ .suspended) (k : Variable → Exec Variable) (core : Machine)
    (f : Frame Variable) (top ds : List (Frame Variable)) :
    after k (.error e, core.topped (f :: top) ds) = (.error e, core.topped top []) := by
  unfold after
  dsimp only
  rw [leaveFrame_of_running fun h => running (Except.error.inj h)]
  rfl

theorem after_checkCrash {span : Span} {crash? : Heap → Option Crash} {g : Heap → Except Fault Variable} {v : Variable}
    (computes : k v (core.topped (f :: top) []) = checkCrash span crash? g (core.topped (f :: top) [])) :
    after k (.ok v, core.topped (f :: top) []) = checkCrash span crash? g (core.topped top []) := by
  unfold after
  dsimp only
  rw [computes, checkCrash_apply, checkCrash_apply, Machine.heap_topped, Machine.heap_topped]
  cases crash? core.heap with
  | some c => rfl
  | none =>
    dsimp only
    rw [checkHeap_apply, checkHeap_apply, Machine.heap_topped, Machine.heap_topped]
    cases g core.heap <;> rfl

theorem after_storing {span : Span} {crash? : Option Crash} {r : Except Fault Variable} {v : Variable} {x : VarId}
    (own : f.Blank) (blank : ∀ g ∈ top, g.Blank)
    (stores : k v (core.topped (f :: top) []) = (core.topped (f :: top) []).storing span x Slot.toTemp crash? r) :
    after k (.ok v, core.topped (f :: top) []) = (core.topped top []).storing span x Slot.toTemp crash? r := by
  unfold after
  dsimp only
  rw [stores]
  unfold Machine.storing
  cases crash? with
  | some c => rfl
  | none =>
    cases r with
    | error fault => rfl
    | ok u =>
      dsimp only
      rw [Machine.setVar_topped (List.forall_mem_cons.2 ⟨own, blank⟩), Machine.setVar_topped blank]
      rfl

theorem operate_of_ne {ty : Ty} (other : ty ≠ .string) (span : Span) (op : BinaryOp) (left right : Variable)
    (m : Machine) : operate span op left right ty m = check span (m.heap.binary op left right ty) m := by
  unfold operate
  rw [checkCrash_apply, Heap.crash?_of_ne other, Heap.crash?_of_ne other, ite_self]
  rfl

theorem convert_float_apply (span : Span) (v : Variable) (m : Machine) :
    convert span v .float m = check span (m.heap.convert v .float) m := by
  unfold convert
  rw [checkCrash_apply, Heap.crash?_of_ne (by decide)]
  rfl

end Exec

/-!
## The right operand
-/

def conversionFrames (cs : List NodeId) : List (Frame Variable) := cs.map (Spot.mk 0 0 []).frame

theorem blank_conversionFrames (cs : List NodeId) : ∀ f ∈ conversionFrames cs, f.Blank := by
  intro f hf
  obtain ⟨node, _, rfl⟩ := List.mem_map.1 hf
  exact Spot.blank ..

def Instr.converting (right : Instr) : List NodeId → Result Variable → Result Variable
  | [], r => r
  | _ :: _, r => after (convert right.span · .float) r

namespace Instr.Operates

variable {target : Ty} {e right : Instr} {cs : List NodeId}

theorem exec_eq (h : e.Operates target cs right) (core : Machine) (top ds : List (Frame Variable)) :
    exec p (room + cs.length) right (core.topped top []) =
        right.converting cs (exec p room e (core.topped ((conversionFrames cs).reverse ++ top) [])) ∧
      exec p (room + cs.length) right (core.topped top (conversionFrames cs ++ ds)) =
        right.converting cs (exec p room e (core.topped ((conversionFrames cs).reverse ++ top) ds)) := by
  cases h with
  | same => exact ⟨rfl, rfl⟩
  | converted float form => exact exec_convert form core top ds

theorem suspended (h : e.Operates target cs right) (core : Machine) (top ds : List (Frame Variable)) :
    right.converting cs (.error .suspended, core.topped ((conversionFrames cs).reverse ++ top) ds) =
      (.error .suspended, core.topped top (conversionFrames cs ++ ds)) := by
  cases h <;> rfl

theorem error (h : e.Operates target cs right) {e : Interrupt} (running : e ≠ .suspended) (core : Machine)
    (top : List (Frame Variable)) :
    right.converting cs (.error e, core.topped ((conversionFrames cs).reverse ++ top) []) =
      (.error e, core.topped top []) := by
  cases h with
  | same => rfl
  | converted => exact after_error running (convert right.span · .float) ..

theorem value (h : e.Operates target cs right) {old : Variable} (holds : target = .float → ∃ x, old.toFloat = .ok x)
    (span : Span) (op : BinaryOp) (w : Variable) (core : Machine) (node : NodeId) (top : List (Frame Variable)) :
    ∃ span', after (binary span op target) (right.converting cs
        (.ok w, core.topped ((conversionFrames cs).reverse ++ (Spot.last [old]).frame node :: top) [])) =
      operate span' op old w target (core.topped top []) := by
  have computes (w : Variable) :
      after (binary span op target) (.ok w, core.topped ((Spot.last [old]).frame node :: top) []) =
      operate span op old w target (core.topped top []) := after_checkCrash rfl
  cases h with
  | same => exact ⟨span, computes w⟩
  | converted float form =>
    subst float
    have converted : after (convert right.span · .float) (.ok w,
        core.topped ((Spot.mk 0 0 []).frame right.id :: (Spot.last [old]).frame node :: top) []) =
      check right.span (core.heap.convert w .float) (core.topped ((Spot.last [old]).frame node :: top) []) :=
        (after_checkCrash rfl).trans (convert_float_apply ..)
    have computed (span : Span) (w : Variable) : operate span op old w .float (core.topped top []) =
        check span (core.heap.binary op old w .float) (core.topped top []) := operate_of_ne (by decide) ..
    obtain ⟨x, left⟩ := holds rfl
    change ∃ span', after _ (after (convert right.span · .float) (.ok w,
        core.topped ((Spot.mk 0 0 []).frame right.id :: (Spot.last [old]).frame node :: top) [])) = _
    rw [converted]
    cases float : w.toFloat with
    | ok y =>
      have same : core.heap.binary op old (Slot.ofFloat y) .float = core.heap.binary op old w .float :=
        Heap.binary_float_congr rfl float.symm
      refine ⟨span, ?_⟩
      rw [Heap.convert_float float, computed, ← same, ← computed]
      exact computes _
    | error fault =>
      have faults : core.heap.convert w .float = .error fault := by
        unfold Heap.convert Heap.assign Heap.convertValue
        change (w.toFloat.map _).map _ = _
        rw [float]
        rfl
      have faults' : core.heap.binary op old w .float = .error fault := by
        unfold Heap.binary
        dsimp only
        rw [left, float]
        rfl
      refine ⟨right.span, ?_⟩
      rw [faults, computed, faults']
      exact after_error (e := .fault ⟨fault, right.span⟩) nofun ..

end Instr.Operates

namespace Expansion

variable (E : Expansion place i j)

def frames (v : Variable) : List (Frame Variable) :=
  (Spot.last []).frame j.id :: (Spot.last [v.toTemp]).frame E.sum.id :: conversionFrames E.conversions

def extra : Nat := E.conversions.length + 1

/-- Between two ticks both are at the operand, or neither has begun. -/
inductive Paired (p : Program) (v : Variable) : Machine → Machine → Prop
  | fresh (core : Machine) (keeps : Frame.findVar? place.root core.frames = some v) :
    Paired p v (core.topped [] []) (core.topped [] [])
  | paused (core : Machine) (keeps : Frame.findVar? place.root core.frames = some v) {ds ds' : List (Frame Variable)}
    (rests : Rests p place.root E.value E.value' ds ds') :
    Paired p v (core.topped [] ((Spot.last []).frame i.id :: ds)) (core.topped [] (E.frames v ++ ds'))

/-- How a tick ends: both are suspended, or both end with the same value or for the same reason, on one machine. -/
inductive Ticks (p : Program) (v : Variable) : Result Variable → Result Variable → Prop
  | suspended {m n : Machine} (paired : E.Paired p v m n) : Ticks p v (.error .suspended, m) (.error .suspended, n)
  | ended (m : Machine) (bare : m.deeper = []) {o o' : Except Interrupt Variable} (agree : Agree o o')
    (running : o ≠ .error .suspended) : Ticks p v (o, m) (o', m)

def abode (v : Variable) : Abode where
  left := [(Spot.last []).frame i.id]
  right := (E.frames v).reverse
  x := place.root
  value := v
  blankLeft := List.forall_mem_singleton.2 (Spot.blank ..)
  blankRight f hf := by
    rcases List.mem_cons.1 (List.mem_reverse.1 hf) with rfl | hf
    · exact Spot.blank ..
    · rcases List.mem_cons.1 hf with rfl | hf
      · exact Spot.blank ..
      · exact blank_conversionFrames _ f hf

def finishing : Result Variable → Result Variable :=
  after (assign j.span place none place.ty) ∘ after (binary E.sum.span E.op place.ty) ∘ E.right.converting E.conversions

theorem right_eq (v : Variable) : (E.abode v).right = (conversionFrames E.conversions).reverse ++
    [(Spot.last [v.toTemp]).frame E.sum.id, (Spot.last []).frame j.id] := by
  change (E.frames v).reverse = _
  unfold frames
  simp

theorem exec_expansion {v : Variable} (init : v.isInit = true) (core : Machine)
    (keeps : Frame.findVar? place.root core.frames = some v) (ds : List (Frame Variable)) :
    exec p (room + 1 + E.extra) j (core.topped [] []) =
        E.finishing (exec p room E.value' (core.topped (E.abode v).right [])) ∧
      exec p (room + 1 + E.extra) j (core.topped [] (E.frames v ++ ds)) =
        E.finishing (exec p room E.value' (core.topped (E.abode v).right ds)) := by
  have rooms : room + 1 + E.extra = room + E.conversions.length + 1 + 1 := by
    unfold extra
    omega
  have blank : ∀ f ∈ [(Spot.last []).frame j.id], f.Blank := List.forall_mem_singleton.2 (Spot.blank ..)
  have operand := @Instr.Operates.exec_eq p room _ _ _ _ E.operates core
    [(Spot.last [v.toTemp]).frame E.sum.id, (Spot.last []).frame j.id] ds
  have sum (ds : List (Frame Variable)) :=
    @exec_operator p (room + E.conversions.length) _ _ _ _ _ _ _ E.computes E.reads E.whole core
    [(Spot.last []).frame j.id] ds blank keeps init
  have assignment (ds : List (Frame Variable)) :=
    @exec_store p (room + E.conversions.length + 1) _ _ _ _ _ E.assigns E.whole core [] ds
  rw [rooms, right_eq]
  unfold finishing
  constructor
  · rw [(assignment []).1, (sum []).1, operand.1]
    rfl
  · unfold frames
    rw [List.cons_append, List.cons_append, (assignment _).2, (sum _).2, operand.2]
    rfl

theorem finishing_suspended (v : Variable) (core : Machine) (ds : List (Frame Variable)) :
    E.finishing (.error .suspended, core.topped (E.abode v).right ds) =
      (.error .suspended, core.topped [] (E.frames v ++ ds)) := by
  unfold finishing
  rw [right_eq, Function.comp_apply, Function.comp_apply, E.operates.suspended]
  rfl

theorem finishing_error {e : Interrupt} (running : e ≠ .suspended) (v : Variable) (core : Machine) :
    E.finishing (.error e, core.topped (E.abode v).right []) = (.error e, core.topped [] []) := by
  unfold finishing
  rw [right_eq, Function.comp_apply, Function.comp_apply, E.operates.error running, after_error running,
    after_error running]

theorem finishing_value {v : Variable} (holds : place.ty = .float → ∃ x, v.toFloat = .ok x) (core : Machine)
    (keeps : Frame.findVar? place.root core.frames = some v) (w : Variable) :
    ∃ span, E.finishing (.ok w, core.topped (E.abode v).right []) =
      (core.topped [] []).storing span place.root Slot.toTemp
      ((core.heap.crash? place.ty v.toTemp).or (if v.isInit then core.heap.crash? place.ty w else none))
      (do core.heap.assign v (← core.heap.binary E.op v.toTemp w place.ty)) := by
  have temp : place.ty = .float → ∃ x, v.toTemp.toFloat = .ok x := holds
  obtain ⟨span, computed⟩ := E.operates.value temp E.sum.span E.op w core E.sum.id [(Spot.last []).frame j.id]
  unfold finishing
  rw [right_eq, Function.comp_apply, Function.comp_apply, computed, operate, checkCrash_apply, Machine.heap_topped,
    show v.toTemp.isInit = v.isInit from rfl]
  cases (core.heap.crash? place.ty v.toTemp).or (if v.isInit then core.heap.crash? place.ty w else none) with
  | some c => exact ⟨span, after_error (by simp) ..⟩
  | none =>
    dsimp only
    rw [checkHeap_apply, Machine.heap_topped]
    cases yields : core.heap.binary E.op v.toTemp w place.ty with
    | error fault => exact ⟨span, after_error (by simp) ..⟩
    | ok u =>
      have own : ((Spot.last []).frame j.id).Blank := Spot.blank ..
      have found : (core.topped [(Spot.last []).frame j.id] []).findVar? place.root = some v :=
        (Machine.findVar?_topped (List.forall_mem_singleton.2 own)).trans keeps
      have stored := (Machine.provides_of_found j.span found E.whole).store place.ty u
      rw [Heap.crash?_of_scalar (Heap.scalar_of_binary yields)] at stored
      exact ⟨j.span, after_storing own (List.forall_mem_nil _) stored⟩

theorem Ticks.of_storing (span span' : Span) (v : Variable) (core : Machine) (crash? : Option Crash)
    (r : Except Fault Variable) :
    E.Ticks p v ((core.topped [] []).storing span place.root Slot.toTemp crash? r)
      ((core.topped [] []).storing span' place.root Slot.toTemp crash? r) := by
  cases crash? with
  | some c => exact .ended (core.topped [] []) rfl (.error (.same _)) nofun
  | none =>
    cases r with
    | error fault => exact .ended (core.topped [] []) rfl (.error (.fault ..)) nofun
    | ok u =>
      have stored : (core.topped [] []).setVar place.root u = _ := Machine.setVar_topped nofun
      unfold Machine.storing
      dsimp only
      rw [stored]
      exact .ended _ rfl (.ok rfl) nofun

theorem tick (room : Nat) (braced : p.Braced) (spares : E.value.Spares place.root) {v : Variable} (init : v.isInit = true)
    (holds : place.ty = .float → ∃ x, v.toFloat = .ok x) {m n : Machine} (paired : E.Paired p v m n) :
    E.Ticks p v (exec p (room + 1) i m) (exec p (room + 1 + E.extra) j n) := by
  have ends (core : Machine) (keeps : Frame.findVar? place.root core.frames = some v) {ds ds' : List (Frame Variable)}
      (rests : Rests p place.root E.value E.value' ds ds') :
      E.Ticks p v
        (after (assign i.span place (some E.op) place.ty) (exec p room E.value (core.topped (E.abode v).left ds)))
        (E.finishing (exec p room E.value' (core.topped (E.abode v).right ds'))) := by
    have runs := @exec_twins (E.abode v) p room _ _ _ _ braced core keeps E.twin rests
    generalize exec p room E.value _ = r at runs
    generalize exec p room E.value' _ = r' at runs
    cases runs with
    | suspended core keeps rests =>
      rw [E.finishing_suspended]
      exact .suspended (.paused core keeps rests)
    | ended core keeps agree running =>
      cases agree with
      | @error e e' same =>
        have left : e ≠ .suspended := fun h => running (congrArg _ h)
        have agree : Agree (.error e : Except Interrupt Variable) (.error e') := .error same
        have right : e' ≠ .suspended := fun h => agree.running running (congrArg _ h)
        have failed := after_error left (assign i.span place (some E.op) place.ty) core ((Spot.last []).frame i.id)
          [] []
        rw [E.finishing_error right]
        exact failed ▸ .ended (core.topped [] []) rfl agree running
      | @ok w w' same =>
        subst same
        have own : ((Spot.last []).frame i.id).Blank := Spot.blank ..
        have found : (core.topped [(Spot.last []).frame i.id] []).findVar? place.root = some v :=
          (Machine.findVar?_topped (List.forall_mem_singleton.2 own)).trans keeps
        have stored := after_storing own (List.forall_mem_nil _)
          ((Machine.provides_of_found i.span found E.whole).update E.op place.ty w)
        obtain ⟨span, stored'⟩ := E.finishing_value holds core keeps w
        rw [stored']
        exact stored ▸ .of_storing ..
  cases paired with
  | fresh core keeps =>
    rw [(exec_store E.compound E.whole core [] []).1, (E.exec_expansion init core keeps []).1]
    exact ends core keeps (.fresh E.twin spares)
  | paused core keeps rests =>
    rw [(exec_store E.compound E.whole core [] _).2, (E.exec_expansion init core keeps _).2]
    exact ends core keeps rests

end Expansion

/-!
## Several ticks
-/

/-- The machine at the start of another tick: the frames as they were left, and all else as the host has it by then. -/
def Machine.resumed (m host : Machine) : Machine := { host with frames := m.frames, deeper := m.deeper }

namespace Exec

/-- An execution over as many ticks as it takes: while it is suspended it goes on at the start of the next tick. -/
def ticks (p : Program) (room : Nat) (i : Instr) : (hosts : List Machine) → Machine → Result Variable
  | [], m => exec p room i m
  | host :: hosts, m =>
    match exec p room i m with
    | (.error .suspended, m') => ticks p room i hosts (m'.resumed host)
    | r => r

/-- In one of these ticks the limit on nested frames is reached. -/
inductive TicksOverflow (p : Program) (room : Nat) (i : Instr) : List Machine → Machine → Prop
  | now {hosts : List Machine} {m : Machine} (overflows : Overflows p room i m) : TicksOverflow p room i hosts m
  | later {host : Machine} {hosts : List Machine} {m m' : Machine}
    (suspended : exec p room i m = (.error .suspended, m'))
    (overflow : TicksOverflow p room i hosts (m'.resumed host)) : TicksOverflow p room i (host :: hosts) m

theorem not_ticksOverflow_of_fits {hosts : List Machine}
    (calm : ∀ j ∈ i.all, ∀ callee args ret, j.form ≠ .call callee args ret)
    (fits : i.Fits room) : ¬ TicksOverflow p room i hosts m := by
  intro h
  induction h with
  | now overflows => exact not_overflows_of_fits calm fits overflows
  | later _ _ ih => exact ih

/-- Two executions end alike: with the same value or the same fault, though this may be reported at another range, and
on machines that differ in the frames of what is suspended only. -/
structure EndAlike (r r' : Result Variable) : Prop where
  outcomes : Agree r.1 r'.1
  machines : { r.2 with deeper := [] } = { r'.2 with deeper := [] }
  ended : r.1 ≠ .error .suspended → r.2 = r'.2

theorem ticks_of_running {hosts : List Machine} (running : (exec p room i m).1 ≠ .error .suspended) :
    ticks p room i hosts m = exec p room i m := by
  cases hosts with
  | nil => rfl
  | cons host hosts =>
    unfold ticks
    split
    · rename_i suspended
      rw [suspended] at running
      exact absurd rfl running
    · rfl

theorem ticks_of_suspended (suspended : exec p room i m = (.error .suspended, m')) (host : Machine)
    (hosts : List Machine) :
    ticks p room i (host :: hosts) m = ticks p room i hosts (m'.resumed host) := by
  rw [ticks, suspended]

theorem ticks_more {hosts : List Machine} (more : Nat) (stays : ¬ TicksOverflow p room i hosts m) :
    ticks p (room + more) i hosts m = ticks p room i hosts m := by
  induction hosts generalizing m with
  | nil => exact exec_more more fun overflows => stays (.now overflows)
  | cons host hosts ih =>
    have first : exec p (room + more) i m = exec p room i m := exec_more more fun overflows => stays (.now overflows)
    by_cases suspended : (exec p room i m).1 = .error .suspended
    · have here : exec p room i m = (.error .suspended, (exec p room i m).2) := Prod.ext suspended rfl
      rw [ticks_of_suspended here, ticks_of_suspended (first.trans here)]
      exact ih fun overflow => stays (.later here overflow)
    · rw [ticks_of_running suspended, ticks_of_running (first ▸ suspended), first]

end Exec

namespace Expansion

variable (E : Expansion place i j)

theorem Paired.resumed {v : Variable} {n : Machine} (paired : E.Paired p v m n) (host : Machine) :
    E.Paired p v (m.resumed host) (n.resumed host) := by
  cases paired with
  | fresh core keeps => exact .fresh (core.resumed host) keeps
  | paused core keeps rests => exact .paused (core.resumed host) keeps rests

theorem Ticks.endAlike {v : Variable} {r r' : Result Variable} (h : E.Ticks p v r r') : EndAlike r r' := by
  cases h with
  | ended m bare agree running => exact ⟨agree, rfl, fun _ => rfl⟩
  | suspended paired =>
    refine ⟨.error (.same _), ?_, fun running => absurd rfl running⟩
    cases paired <;> rfl

theorem endAlike_deeper (braced : p.Braced) (spares : E.value.Spares place.root) {v : Variable} (init : v.isInit = true)
    (holds : place.ty = .float → ∃ x, v.toFloat = .ok x) (hosts : List Machine) {m n : Machine}
    (paired : E.Paired p v m n) :
    EndAlike (ticks p (room + 1) i hosts m) (ticks p (room + 1 + E.extra) j hosts n) := by
  induction hosts generalizing m n with
  | nil => exact (E.tick room braced spares init holds paired).endAlike
  | cons host hosts ih =>
    have first := E.tick room braced spares init holds paired
    generalize here : exec p (room + 1) i m = r at first
    generalize there : exec p (room + 1 + E.extra) j n = r' at first
    cases first with
    | suspended paired =>
      rw [ticks_of_suspended here, ticks_of_suspended there]
      exact ih (paired.resumed E host)
    | ended m bare agree running =>
      rw [ticks_of_running (here ▸ running), ticks_of_running (there ▸ agree.running running), here, there]
      exact ⟨agree, rfl, fun _ => rfl⟩

theorem endAlike (braced : p.Braced) (spares : E.value.Spares place.root) {v : Variable} (bare : m.deeper = [])
    (found : m.findVar? place.root = some v) (init : v.isInit = true)
    (holds : place.ty = .float → ∃ x, v.toFloat = .ok x) {hosts : List Machine}
    (stays : ¬ TicksOverflow p room j hosts m) :
    EndAlike (ticks p room i hosts m) (ticks p room j hosts m) := by
  have keeps : Frame.findVar? place.root m.frames = some v := by
    unfold Machine.findVar? Machine.allFrames at found
    rw [bare] at found
    exact found
  have fresh : m = m.topped [] [] := by
    cases m
    cases bare
    rfl
  cases room with
  | zero =>
    have parts : j.isLeaf = false := by
      unfold Instr.isLeaf
      rw [E.assigns]
      rfl
    exact absurd (.now (.limit .root parts)) stays
  | succ room =>
    have paired : E.Paired p v m m := fresh ▸ .fresh m keeps
    exact ticks_more E.extra stays ▸ E.endAlike_deeper braced spares init holds hosts paired

end Expansion

end Tickwise
