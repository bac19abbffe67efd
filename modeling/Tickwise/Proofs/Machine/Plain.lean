import Tickwise.Machine.Exec
set_option autoImplicit false

/-!
# Plain computations

Between the instructions that it executes an instruction only reads and changes its own frame, the
variables in sight and the heap. Such computations are made of few primitive ones, so what holds of
those holds of every move.
-/
namespace Tickwise

theorem Frame.mem_of_findVar? {id : VarId} {v : Variable} {fs : List (Frame Variable)}
    (found : Frame.findVar? id fs = some v) : v.id = id ∧ ∃ f ∈ fs, v ∈ f.locals := by
  induction fs with
  | nil => cases found
  | cons f fs ih =>
    unfold Frame.findVar? at found
    split at found
    case h_1 w own =>
      cases found
      have hit : decide (v.id = id) = true := List.find?_some (p := fun w : Variable => decide (w.id = id)) own
      have mem : v ∈ f.locals := List.mem_reverse.1 (List.mem_of_find?_eq_some own)
      exact ⟨of_decide_eq_true hit, f, List.mem_cons_self, mem⟩
    case h_2 =>
      split at found
      · cases found
      · obtain ⟨same, g, hg, mem⟩ := ih found
        exact ⟨same, g, List.mem_cons_of_mem _ hg, mem⟩

theorem Frame.id_of_findVar? {id : VarId} {v : Variable} {fs : List (Frame Variable)}
    (found : Frame.findVar? id fs = some v) : v.id = id :=
  (mem_of_findVar? found).1

theorem Heap.id_of_assign {h : Heap} {slot src v : Variable} (assigned : h.assign slot src = .ok v) :
    v.id = slot.id := by
  unfold assign at assigned
  cases converted : h.convertValue slot.ty src with
  | error fault =>
    rw [converted] at assigned
    cases assigned
  | ok value =>
    rw [converted] at assigned
    cases assigned
    rfl

theorem Slot.id_of_step {ρ : Type} {up : Bool} {s t : Slot ρ} (stepped : s.step up = .ok t) : t.id = s.id := by
  unfold step at stepped
  split at stepped <;> cases stepped <;> rfl

namespace Exec

variable {α β : Type}

theorem bind_apply (c : Exec α) (f : α → Exec β) (m : Machine) :
    (c >>= f) m = match c m with
      | (.ok a, m') => f a m'
      | (.error e, m') => (.error e, m') := by
  simp only [bind, ExceptT.bind, ExceptT.mk, StateT.bind, ExceptT.bindCont]
  rcases c m with ⟨_ | _, _⟩ <;> rfl

theorem read_apply (span : Span) (storage : Storage) (m : Machine) :
    read span storage m = (match m.read? storage with
      | some v => return v
      | none => missing span storage : Exec Variable) m := rfl

theorem ok_of_bind {c : Exec α} {f : α → Exec β} {b : β} {m m' : Machine}
    (h : (c >>= f) m = (.ok b, m')) : ∃ a m₁, c m = (.ok a, m₁) ∧ f a m₁ = (.ok b, m') := by
  rw [bind_apply] at h
  generalize c m = r at h
  rcases r with ⟨_ | a, m₁⟩
  · cases h
  · exact ⟨a, m₁, rfl, h⟩

theorem ok_of_check {span : Span} {r : Except Fault α} {a : α} {m m' : Machine}
    (h : check span r m = (.ok a, m')) : r = .ok a ∧ m' = m := by
  cases r <;> cases h
  exact ⟨rfl, rfl⟩

theorem checkCrash_apply (span : Span) (crash? : Heap → Option Crash) (f : Heap → Except Fault α) (m : Machine) :
    checkCrash span crash? f m = (match crash? m.heap with
      | some c => crash c
      | none => checkHeap span f : Exec α) m := rfl

theorem ok_of_checkHeap {span : Span} {f : Heap → Except Fault α} {a : α} {m m' : Machine}
    (h : checkHeap span f m = (.ok a, m')) : f m.heap = .ok a ∧ m' = m :=
  ok_of_check h

theorem ok_of_checkCrash {span : Span} {crash? : Heap → Option Crash} {f : Heap → Except Fault α} {a : α}
    {m m' : Machine} (h : checkCrash span crash? f m = (.ok a, m')) : f m.heap = .ok a ∧ m' = m := by
  rw [checkCrash_apply] at h
  cases hc : crash? m.heap with
  | none =>
    rw [hc] at h
    exact ok_of_checkHeap h
  | some c =>
    rw [hc] at h
    cases h

@[simp] theorem pure_apply (a : α) (m : Machine) : (pure a : Exec α) m = (.ok a, m) := rfl

@[simp] theorem throw_apply (e : Interrupt) (m : Machine) :
    (throw e : Exec α) m = (.error e, m) := rfl

@[simp] theorem modify_apply (g : Machine → Machine) (m : Machine) :
    (modify g : Exec Unit) m = (.ok (), g m) := rfl

theorem ok_of_read {span : Span} {id : VarId} {v : Variable} {m m' : Machine}
    (h : read span (.var id) m = (.ok v, m')) : m.findVar? id = some v := by
  rw [read_apply] at h
  change (match m.findVar? id with
    | some v => return v
    | none => missing span (.var id) : Exec Variable) m = _ at h
  cases found : m.findVar? id with
  | none =>
    rw [found] at h
    cases h
  | some w =>
    rw [found] at h
    cases h
    rfl

theorem finish_ne_none (c : Exec Variable) (m m' : Machine) : finish c m ≠ (.ok none, m') := by
  unfold finish
  rw [bind_apply]
  rcases c m with ⟨_ | _, _⟩ <;> nofun

theorem eq_error_of_finish {c : Exec Variable} {m m' : Machine} {e : Interrupt}
    (h : finish c m = (.error e, m')) : c m = (.error e, m') := by
  unfold finish at h
  rw [bind_apply] at h
  generalize c m = r at h
  rcases r with ⟨_ | v, _⟩
  · cases h
    rfl
  · cases h

theorem eq_ok_of_goOn {c : Exec Unit} {m m' : Machine} (h : goOn c m = (.ok none, m')) :
    c m = (.ok (), m') := by
  unfold goOn at h
  rw [bind_apply] at h
  generalize c m = r at h
  rcases r with ⟨_ | _, _⟩
  · cases h
  · cases h
    rfl

end Exec

theorem mem_of_itemAt? {α : Type} {items : List α} {index : Int} {a : α}
    (h : itemAt? items index = some a) : a ∈ items := by
  unfold itemAt? at h
  split at h
  · cases h
  · exact List.mem_of_getElem? h

/-- If this is a fault then its range is of a kind. -/
def Interrupt.Blames (P : Span → Prop) (e : Interrupt) : Prop := ∀ error, e = .fault error → P error.span

namespace Exec

variable {α β : Type}

/-- A computation made of reads and writes of the own frame, the variables in sight and the heap. It
does not suspend, its faults are at ranges of a kind, and it writes to a variable under its own identity. -/
inductive Plain (P : Span → Prop) : {α : Type} → Exec α → Prop
  | pure {α : Type} (a : α) : Plain P (pure a : Exec α)
  | throw {α : Type} {e : Interrupt} (running : e ≠ .suspended) (blames : e.Blames P) :
      Plain P (throw e : Exec α)
  | seq {α β : Type} {c : Exec α} {f : α → Exec β} (first : Plain P c)
      (second : ∀ a m m', c m = (.ok a, m') → Plain P (f a)) : Plain P (c >>= f)
  | own : Plain P own
  | heap : Plain P (do return (← get).heap)
  | findVar (id : VarId) : Plain P (do return (← get).findVar? id)
  | setFrame (g : Frame Variable → Frame Variable)
      (same : ∀ f, (g f).node = f.node ∧ (g f).call = f.call ∧ (g f).live = f.live ∧
        (g f).locals = f.locals ∧ (f.scope = true → (g f).scope = true)) : Plain P (modify (·.modifyFrame g))
  | setHeap (h : Heap) : Plain P (modify ({ · with heap := h }))
  | setVar (id : VarId) (v : Variable) (same : v.id = id) : Plain P (modify (·.setVar id v))
  | declareVar (v : Variable) : Plain P (modify (·.declare v))

namespace Plain

variable {P : Span → Prop}

theorem bind {c : Exec α} {f : α → Exec β} (first : Plain P c) (second : ∀ a, Plain P (f a)) : Plain P (c >>= f) :=
  .seq first fun a _ _ _ => second a

theorem ite {c d : Exec α} {q : Prop} [Decidable q] (hc : Plain P c) (hd : Plain P d) :
    Plain P (if q then c else d) := by
  split
  · exact hc
  · exact hd

theorem withOwn {f : Frame Variable → Exec α} (h : ∀ own, Plain P (f own)) :
    Plain P (do f (← get).own) := by
  change Plain P (Exec.own >>= f)
  exact .bind .own h

theorem withHeap {f : Heap → Exec α} (h : ∀ heap, Plain P (f heap)) : Plain P (do f (← get).heap) := by
  change Plain P ((do return (← get).heap) >>= f)
  exact .bind .heap h

theorem withVar (id : VarId) {f : Option Variable → Exec α} (h : ∀ v?, Plain P (f v?)) :
    Plain P (do f ((← get).findVar? id)) := by
  change Plain P ((do return (← get).findVar? id) >>= f)
  exact .bind (.findVar id) h

variable {span : Span}

theorem faultAt (hp : P span) (fault : Fault) : Plain P (faultAt span fault : Exec α) := by
  refine .throw nofun fun error same => ?_
  cases same
  exact hp

theorem crash (c : Crash) : Plain P (crash c : Exec α) := .throw nofun nofun

theorem void : Plain P void := .pure _

theorem finish {c : Exec Variable} (h : Plain P c) : Plain P (finish c) := .bind h fun _ => .pure _

theorem goOn {c : Exec Unit} (h : Plain P c) : Plain P (goOn c) := .bind h fun _ => .pure _

theorem check (hp : P span) (r : Except Fault α) : Plain P (check span r) := by
  cases r with
  | ok a => exact .pure a
  | error fault => exact .faultAt hp fault

theorem checkHeap (hp : P span) (f : Heap → Except Fault α) : Plain P (checkHeap span f) :=
  .withHeap fun h => .check hp (f h)

theorem checkCrash (hp : P span) (crash? : Heap → Option Crash) (f : Heap → Except Fault α) :
    Plain P (checkCrash span crash? f) := by
  change Plain P ((do return (← get).heap) >>= fun h => match crash? h with
    | some c => Exec.crash c
    | none => Exec.checkHeap span f)
  refine .bind .heap fun h => ?_
  cases crash? h with
  | some c => exact .crash c
  | none => exact .checkHeap hp f

theorem convert (hp : P span) (v : Variable) (ty : Ty) : Plain P (convert span v ty) := .checkCrash hp ..

theorem checkStorage (hp : P span) (f : Heap → Except Fault (α × Heap)) :
    Plain P (checkStorage span f) :=
  .bind (.checkHeap hp f) fun r => .bind (.setHeap r.2) fun _ => .pure r.1

theorem operands : Plain P operands := .withOwn fun f => .pure f.operands

theorem setPosition (state : Nat) (index : Int) : Plain P (setPosition state index) :=
  .setFrame _ fun _ => ⟨rfl, rfl, rfl, rfl, id⟩

theorem nextIndex (state : Nat) : Plain P (nextIndex state) := .setFrame _ fun _ => ⟨rfl, rfl, rfl, rfl, id⟩

theorem setOperands (vs : List Variable) : Plain P (setOperands vs) :=
  .setFrame _ fun _ => ⟨rfl, rfl, rfl, rfl, id⟩

theorem pushOperand (v : Variable) : Plain P (pushOperand v) := .setFrame _ fun _ => ⟨rfl, rfl, rfl, rfl, id⟩

theorem openScope : Plain P openScope := .setFrame _ fun _ => ⟨rfl, rfl, rfl, rfl, fun _ => rfl⟩

theorem missing (hp : P span) (storage : Storage) : Plain P (missing span storage : Exec α) := by
  cases storage with
  | var id => exact .faultAt hp .uninitialized
  | cell ref position => exact .crash .panic

theorem found (hp : P span) (storage : Storage) (v? : Option Variable) : Plain P (match v? with
    | some v => return v
    | none => Exec.missing span storage) := by
  cases v? with
  | some v => exact .pure v
  | none => exact .missing hp storage

theorem read (hp : P span) (storage : Storage) : Plain P (read span storage) := by
  cases storage with
  | var id => exact .withVar id (.found hp (.var id))
  | cell ref position => exact .withHeap fun h => .found hp (.cell ref position) (h.read? ref position)

theorem write (storage : Storage) (v : Variable) (same : ∀ id, storage = .var id → v.id = id) :
    Plain P (modify (·.write storage v)) := by
  cases storage with
  | var id => exact .setVar id v (same id rfl)
  | cell ref position =>
    change Plain P (do modify ({ · with heap := (← get).heap.write ref position v }))
    exact .withHeap fun h => .setHeap (h.write ref position v)

theorem extendArray (hp : P span) (ref : Ref) (position : Nat) (elem : Ty) :
    Plain P (extendArray span ref position elem) :=
  .ite (.faultAt hp _)
    (.bind (.checkHeap hp _) fun r => .setHeap (r.2.extend ref (position + 1) r.1))

theorem element (hp : P span) (container : Variable) (index : Int32) (elem : Ty) (grow : Bool) :
    Plain P (element span container index elem grow) := by
  refine .bind (.check hp _) fun ref => .ite (.faultAt hp _) ?_
  let place : Storage := .cell ref index.toInt.toNat
  have whether (h : Heap) : Plain P (if index.toInt.toNat < (h.elements ref).size then return place
      else if grow then do
        Exec.extendArray span ref index.toInt.toNat elem
        return place
      else Exec.faultAt span .indexOutOfRange) :=
    .ite (.pure _) (.ite (.bind (.extendArray hp ..) fun _ => .pure _) (.faultAt hp _))
  exact .withHeap whether

theorem follow {ι : Type} (hp : P span) (grow : Bool) (path : List (Access ι))
    (indices : List Variable) (storage : Storage) :
    Plain P (follow span grow path indices storage) := by
  induction path generalizing indices storage with
  | nil => exact .pure storage
  | cons access path ih =>
    cases access with
    | field position => exact .bind (.read hp _) fun _ => .bind (.check hp _) fun _ => ih _ _
    | index e elem =>
      exact .bind (.read hp _) fun _ => .bind (.check hp _) fun _ =>
        .bind (.element hp ..) fun _ => ih _ _

theorem locate {ι : Type} (hp : P span) (place : Place ι) (grow : Bool) :
    Plain P (locate span place grow) :=
  .bind (.read hp _) fun _ => .bind .operands fun _ => .follow hp ..

/-- What was read from a variable has its identity, and so has what is stored there. -/
theorem update {storage : Storage} {old new : Variable} {m m' : Machine} {f : Unit → Exec α}
    (read : Exec.read span storage m = (.ok old, m')) (same : new.id = old.id) (h : ∀ u, Plain P (f u)) :
    Plain P ((modify (·.write storage new) : Exec Unit) >>= f) := by
  refine .bind (.write _ _ fun id at_ => ?_) h
  subst at_
  rw [same]
  exact Frame.id_of_findVar? (ok_of_read read)

theorem store (hp : P span) (storage : Storage) (v : Variable) : Plain P (store span storage v) :=
  .seq (.read hp _) fun _ _ _ read => .seq (.checkCrash hp ..) fun _ _ _ assigned =>
    .update read (Heap.id_of_assign (ok_of_checkCrash assigned).1) fun _ => .pure _

theorem undefinedValue (hp : P span) (ty : Ty) : Plain P (undefinedValue span ty) := by
  cases ty with
  | array elem => exact .bind .operands fun _ => .bind (.check hp _) fun _ => .checkStorage hp _
  | _ => exact .pure _

theorem declare (v : Variable) : Plain P (declare v) := .bind (.declareVar v) fun _ => .void

theorem absorb (label : Option String) (isLoop : Bool) {next : Exec Unit} (hn : Plain P next)
    {o : Except Interrupt Variable} (ho : o ≠ .error .suspended)
    (blames : ∀ e, o = .error e → e.Blames P) : Plain P (absorb label isLoop next o) := by
  rcases o with (_ | target | target | _ | _ | _) | _
  · exact absurd rfl ho
  · exact .ite (.finish .void) (.throw nofun nofun)
  · exact .ite (.goOn hn) (.throw nofun nofun)
  · exact .throw nofun nofun
  · exact .throw nofun (blames _ rfl)
  · exact .crash _
  · exact .goOn hn

theorem attempt {o : Except Interrupt Variable} (ho : o ≠ .error .suspended)
    (blames : ∀ e, o = .error e → e.Blames P) : Plain P (attempt o) := by
  rcases o with (_ | _ | _ | _ | error | _) | _
  · exact absurd rfl ho
  · exact .throw nofun nofun
  · exact .throw nofun nofun
  · exact .throw nofun nofun
  · exact .ite (.throw nofun (blames _ rfl)) (.goOn (.bind (.setOperands _) fun _ => .setPosition 1 0))
  · exact .crash _
  · exact .finish .void

theorem catches (hp : P span) (filter : Variable) (code : Int32) :
    Plain P (catches span filter code) :=
  .ite (.check hp _) (.bind (.check hp _) fun _ => .pure _)

theorem readInit (hp : P span) (storage : Storage) : Plain P (readInit span storage) :=
  .bind (.read hp _) fun _ => .ite (.pure _) (.faultAt hp _)

theorem load (hp : P span) (place : Place Instr) : Plain P (load span place) :=
  .bind (.locate hp ..) fun _ => .readInit hp _

theorem operate (hp : P span) (op : BinaryOp) (left right : Variable) (ty : Ty) :
    Plain P (operate span op left right ty) :=
  .checkCrash hp ..

theorem assign (hp : P span) (place : Place Instr) (op : Option BinaryOp) (operandTy : Ty)
    (v : Variable) : Plain P (assign span place op operandTy v) := by
  refine .bind (.locate hp ..) fun storage => ?_
  cases op with
  | none => exact .store hp ..
  | some op => exact .bind (.read hp _) fun _ => .bind (.operate hp ..) fun _ => .store hp ..

theorem step (hp : P span) (place : Place Instr) (up before : Bool) :
    Plain P (step span place up before) :=
  .bind (.locate hp ..) fun _ => .seq (.read hp _) fun _ _ _ read => .seq (.check hp _) fun _ _ _ stepped =>
    .update read (Slot.id_of_step (ok_of_check stepped).1) fun _ => .pure _

theorem binary (hp : P span) (op : BinaryOp) (operandTy : Ty) (right : Variable) :
    Plain P (binary span op operandTy right) := by
  refine .bind .operands fun vs => ?_
  cases vs.head? with
  | none => exact .faultAt hp _
  | some left => exact .operate hp ..

theorem list (hp : P span) (ty : Ty) : Plain P (list span ty) :=
  .bind .operands fun _ => .checkStorage hp _

theorem result (hp : P span) (ret : Ty) {o : Except Interrupt Variable}
    (ho : o ≠ .error .suspended) (blames : ∀ e, o = .error e → e.Blames P) :
    Plain P (result span ret o) := by
  rcases o with (_ | _ | _ | v | _ | _) | _
  · exact absurd rfl ho
  · exact .throw nofun nofun
  · exact .throw nofun nofun
  · exact .finish (.convert hp ..)
  · exact .throw nofun (blames _ rfl)
  · exact .crash _
  · exact .finish (.ite .void (.faultAt hp _))

theorem leaf {i : Instr} (hp : P i.span) : Plain P (leaf i) := by
  unfold Exec.leaf
  split
  · exact .pure _
  · exact .checkStorage hp _
  · exact .throw nofun nofun
  · exact .throw nofun nofun
  · exact .throw nofun nofun
  · exact .readInit hp _
  · exact .void

end Plain
end Exec

open Exec

/-- Its computations are plain, and a suspension of the instruction beneath is only passed on. -/
def Move.IsPlain (P : Span → Prop) : Move → Prop
  | run _ follow => follow (.error .suspended) = throw .suspended ∧
      ∀ o, o ≠ .error .suspended → (∀ e, o = .error e → e.Blames P) → Plain P (follow o)
  | pass span _ _ => P span
  | act action => Plain P action
  | _ => True

namespace Move.IsPlain

variable {P : Span → Prop} {span : Span}

theorem eval {e : Instr} {follow : Variable → Exec (Option Variable)}
    (h : ∀ v, Plain P (follow v)) : (Move.eval e follow).IsPlain P := by
  refine ⟨rfl, ?_⟩
  rintro (e | v) ho blames
  · exact .throw (fun he => ho (congrArg _ he)) (blames e rfl)
  · exact h v

theorem test {cond : Instr} {follow : Bool → Exec (Option Variable)} (hp : P cond.span)
    (h : ∀ b, Plain P (follow b)) : (Move.test cond follow).IsPlain P :=
  eval fun _ => .bind (.check hp _) h

theorem loopTest {cond : Instr} {next : Exec Unit} (hp : P cond.span) (h : Plain P next) :
    (Move.test cond fun b => if b then goOn next else finish void).IsPlain P :=
  test hp fun _ => .ite (.goOn h) (.finish .void)

theorem sequence (items : List Instr) (index : Int) (state : Nat)
    {afterwards : Exec (Option Variable)} (h : Plain P afterwards) :
    (Move.sequence items index state afterwards).IsPlain P := by
  unfold Move.sequence
  split
  · exact eval fun _ => .goOn (.nextIndex state)
  · exact h

theorem collect (es : List Instr) (index : Int) {afterwards : Exec (Option Variable)}
    (h : Plain P afterwards) : (Move.collect es index afterwards).IsPlain P := by
  unfold Move.collect
  split
  · exact eval fun v => .goOn (.bind (.pushOperand v) fun _ => .nextIndex 0)
  · exact h

theorem absorb (body : Instr) (label : Option String) (isLoop : Bool) {next : Exec Unit}
    (h : Plain P next) : (Move.run body (Exec.absorb label isLoop next)).IsPlain P :=
  ⟨rfl, fun _ ho blames => .absorb label isLoop h ho blames⟩

theorem ofBlock {body : List Instr} (hb : ∀ s ∈ body, P s.span) (f : Frame Variable) :
    (Move.ofBlock body f).IsPlain P := by
  unfold Move.ofBlock
  split
  · exact Plain.finish .void
  · rename_i s hs
    split
    · exact hb s (mem_of_itemAt? hs)
    · exact eval fun _ => .goOn (.nextIndex 0)

theorem ofDeclare (hp : P span) (var : VarId) (name : String) (ty : Ty) (dims : List Instr)
    (init : Option Instr) (f : Frame Variable) :
    (Move.ofDeclare span var name ty dims init f).IsPlain P := by
  unfold Move.ofDeclare
  split
  · exact collect _ _ (.goOn (.setPosition 1 0))
  · cases init with
    | some init => exact eval fun _ => .finish (.bind (.convert hp ..) fun _ => .declare _)
    | none => exact Plain.finish (.bind (.undefinedValue hp _) fun _ => .declare _)

theorem ofBranch {cond : Instr} (hp : P cond.span) (yes : Instr) (no : Option Instr) (f : Frame Variable) :
    (Move.ofBranch cond yes no f).IsPlain P := by
  unfold Move.ofBranch
  split
  · exact test hp fun _ => .goOn (.setPosition ..)
  · exact eval fun _ => .finish .void
  · cases no with
    | some no => exact eval fun _ => .finish .void
    | none => exact Plain.finish .void

theorem ofWhile (hp : P span) (label : Option String) {cond : Instr} (hc : P cond.span) (body : Instr)
    (f : Frame Variable) : (Move.ofWhile span label cond body f).IsPlain P := by
  unfold Move.ofWhile
  split
  · exact loopTest hc (.setPosition 1 0)
  · exact hp
  · exact absorb _ _ _ (.setPosition 0 0)

theorem ofDoWhile (hp : P span) (label : Option String) (body : Instr) {cond : Instr} (hc : P cond.span)
    (f : Frame Variable) : (Move.ofDoWhile span label body cond f).IsPlain P := by
  unfold Move.ofDoWhile
  split
  · exact hp
  · exact absorb _ _ _ (.setPosition 2 0)
  · exact loopTest hc (.setPosition 0 0)

theorem ofFor (hp : P span) (label : Option String) (init : List Instr) {cond : Option Instr}
    (hc : ∀ c ∈ cond, P c.span) (next : List Instr) (body : Instr) (f : Frame Variable) :
    (Move.ofFor span label init cond next body f).IsPlain P := by
  unfold Move.ofFor
  split
  · exact sequence _ _ _ (.goOn (.setPosition 1 0))
  · cases cond with
    | some cond => exact loopTest (hc cond rfl) (.setPosition 2 0)
    | none => exact Plain.goOn (.setPosition 2 0)
  · exact hp
  · exact absorb _ _ _ (.setPosition 4 0)
  · exact sequence _ _ _ (.goOn (.setPosition 1 0))

theorem ofSwitch (hp : P span) (label : Option String) (value : Instr) (cases : List Case)
    {body : List Instr} (hb : ∀ s ∈ body, P s.span) (f : Frame Variable) :
    (Move.ofSwitch span label value cases body f).IsPlain P := by
  unfold Move.ofSwitch
  split
  · refine eval fun v => .bind (.check hp _) fun n => ?_
    cases chooseCase cases n with
    | some c => exact .goOn (.setPosition ..)
    | none => exact .finish .void
  · split
    · exact Plain.finish .void
    · rename_i s hs
      split
      · exact hb s (mem_of_itemAt? hs)
      · exact absorb _ _ _ (.nextIndex 1)

theorem ofTry {body : Instr} (hb : P body.span) {cs : List (Catch Instr)} (hc : ∀ c ∈ cs, P c.filter.span)
    {f : Frame Variable} (kept : f.state ≠ 0 → P (operandsFault f.operands).span) :
    (Move.ofTry body cs f).IsPlain P := by
  unfold Move.ofTry
  split
  case isTrue => exact ⟨rfl, fun _ ho blames => .attempt ho blames⟩
  case isFalse going =>
    split
    · exact Plain.faultAt hb _
    · split
      case h_1 =>
        refine Plain.throw nofun fun error same => ?_
        cases same
        exact kept going
      case h_2 c clause =>
        split
        · exact eval fun _ => .finish .void
        · exact eval fun _ => .bind (.catches (hc c (mem_of_itemAt? clause)) ..) fun _ =>
            .ite (.goOn (.setPosition ..)) (.goOn (.nextIndex 1))

theorem ofStore (hp : P span) (place : Place Instr) (op : Option BinaryOp) (operandTy : Ty)
    (value : Instr) (f : Frame Variable) :
    (Move.ofStore span place op operandTy value f).IsPlain P := by
  unfold Move.ofStore
  split
  · exact collect _ _ (.goOn (.setPosition 1 0))
  · exact eval fun _ => .finish (.assign hp ..)

theorem ofBinary (hp : P span) (op : BinaryOp) (operandTy : Ty) (left right : Instr)
    (f : Frame Variable) : (Move.ofBinary span op operandTy left right f).IsPlain P := by
  unfold Move.ofBinary
  split
  · exact eval fun v => .goOn (.bind (.pushOperand v) fun _ => .setPosition 1 0)
  · exact eval fun _ => .finish (.binary hp ..)

theorem ofLogical (hp : P span) (isAnd : Bool) (left right : Instr) (f : Frame Variable) :
    (Move.ofLogical span isAnd left right f).IsPlain P := by
  unfold Move.ofLogical
  split
  · exact eval fun _ => .bind (.check hp _) fun _ =>
      .ite (.goOn (.setPosition 1 0)) (.finish (.pure _))
  · exact eval fun _ => .finish (.bind (.check hp _) fun _ => .pure _)

theorem ofTernary {cond : Instr} (hp : P cond.span) (yes no : Instr) (f : Frame Variable) :
    (Move.ofTernary cond yes no f).IsPlain P := by
  unfold Move.ofTernary
  split
  · exact test hp fun _ => .goOn (.setPosition ..)
  · exact eval fun _ => .finish (.pure _)
  · exact eval fun _ => .finish (.pure _)

theorem ofCall (hp : P span) (p : Program) (callee : Callee) (args : List Instr) (ret : Ty)
    (f : Frame Variable) : (Move.ofCall p span callee args ret f).IsPlain P := by
  unfold Move.ofCall
  split
  · exact collect _ _ (.goOn (.setPosition 1 0))
  · cases callee with
    | native id =>
      dsimp only
      split
      · exact Plain.faultAt hp _
      · trivial
    | user id =>
      dsimp only
      split
      · exact Plain.faultAt hp _
      · split
        · trivial
        · exact ⟨rfl, fun _ ho blames => .result hp _ ho blames⟩

end Move.IsPlain

/-- The range of an instruction and those of its parts are of a kind. -/
structure Instr.Ranged (P : Span → Prop) (i : Instr) : Prop where
  own : P i.span
  parts : ∀ c ∈ i.form.children, P c.span

def Frame.Remembers (P : Span → Prop) (form : Form Instr) (f : Frame Variable) : Prop :=
  ∀ body catches, form = .tryCatch body catches → f.state ≠ 0 → P (operandsFault f.operands).span

/-- The faults of an instruction are at its range or that of a part, or remembered. -/
theorem Instr.Ranged.move_isPlain {P : Span → Prop} {i : Instr} {f : Frame Variable} (hi : i.Ranged P)
    (hf : f.Remembers P i.form) (p : Program) : (i.move p f).IsPlain P := by
  obtain ⟨own, parts⟩ := hi
  obtain ⟨id, span, form⟩ := i
  change P span at own
  change ∀ c ∈ form.children, P c.span at parts
  change f.Remembers P form at hf
  unfold Instr.move
  split
  case isTrue => exact Plain.goOn .openScope
  case isFalse =>
    cases form with
    | block body => exact .ofBlock parts f
    | declList items => exact .sequence _ _ _ (.finish .void)
    | declare => exact .ofDeclare own ..
    | branch cond => exact .ofBranch (parts cond (by simp [Form.children])) ..
    | whileLoop label cond => exact .ofWhile own _ (parts cond (by simp [Form.children])) ..
    | doWhile label body cond => exact .ofDoWhile own _ _ (parts cond (by simp [Form.children])) _
    | forLoop label init cond =>
      exact .ofFor own _ _ (fun c hc => parts c (by rw [hc]; simp [Form.children])) ..
    | switch label value cases body =>
      exact .ofSwitch own _ _ _ (fun s hs => parts s (by simp [Form.children, hs])) f
    | tryCatch body catches =>
      refine .ofTry (parts body (by simp [Form.children])) (fun c hc => parts c.filter ?_)
        (hf body catches rfl)
      simp only [Form.children, List.mem_cons, List.mem_flatMap]
      exact .inr ⟨c, hc, .inl rfl⟩
    | ret value =>
      cases value with
      | none => exact Plain.finish (.leaf own)
      | some value => exact .eval fun _ => .throw nofun nofun
    | throw value => exact .eval fun _ => .bind (.check own _) fun _ => .faultAt own _
    | load place => exact .collect _ _ (.finish (.load own _))
    | store => exact .ofStore own ..
    | step place => exact .collect _ _ (.finish (.step own ..))
    | binary => exact .ofBinary own ..
    | logical => exact .ofLogical own ..
    | unary => exact .eval fun _ => .finish (.check own _)
    | ternary cond => exact .ofTernary (parts cond (by simp [Form.children])) ..
    | convert => exact .eval fun _ => .finish (.convert own ..)
    | call => exact .ofCall own ..
    | list => exact .collect _ _ (.finish (.list own _))
    | _ => exact Plain.finish (.leaf own)

theorem Instr.move_isPlain (p : Program) (i : Instr) (f : Frame Variable) :
    (i.move p f).IsPlain fun _ => True :=
  Instr.Ranged.move_isPlain ⟨trivial, fun _ _ => trivial⟩ (fun _ _ _ _ => trivial) p

theorem Instr.move_tryCatch {i : Instr} {body : Instr} {cs : List (Catch Instr)}
    (form : i.form = .tryCatch body cs) (p : Program) (f : Frame Variable) : i.move p f = .ofTry body cs f := by
  unfold Instr.move
  rw [form]
  rfl

end Tickwise
