import Tickwise.Proofs.Compile.Emission
import Tickwise.Proofs.Machine.Adequacy
set_option autoImplicit false

/-!
# Jumps in execution

A jump comes out of no computation of a move but of those that pass one on. So it comes from a statement beneath,
and is passed on up to the construct around it that takes it.
-/
namespace Tickwise

open Exec Compile

/-- The interrupt by which a jump leaves the instructions up to the construct that takes it. -/
def Jump.interrupt (j : Jump) : Interrupt := if j.isBreak then .breakTo j.label else .continueTo j.label

theorem Jump.interrupt_inj {j k : Jump} (h : j.interrupt = k.interrupt) : j = k := by
  obtain ⟨_ | _, _⟩ := j <;> obtain ⟨_ | _, _⟩ := k <;> cases h <;> rfl

namespace Exec

variable {α β : Type} {span : Span}

/-- A computation does not end with a jump. -/
def Quiet (c : Exec α) : Prop := ∀ m j, (c m).1 ≠ .error (Jump.interrupt j)

namespace Quiet

theorem pure (a : α) : Quiet (pure a : Exec α) := nofun

theorem throw {e : Interrupt} (h : ∀ j, e ≠ Jump.interrupt j) : Quiet (throw e : Exec α) :=
  fun _ j same => h j (Except.error.inj same)

theorem bind {c : Exec α} {f : α → Exec β} (first : Quiet c) (second : ∀ a, Quiet (f a)) : Quiet (c >>= f) := by
  intro m j
  have quiet := first m j
  rw [bind_apply]
  generalize c m = r at quiet ⊢
  obtain ⟨_ | a, m'⟩ := r
  · exact fun same => quiet (congrArg _ (Except.error.inj same))
  · exact second a m' j

theorem get {f : Machine → Exec α} (h : ∀ m, Quiet (f m)) : Quiet (do f (← get)) := fun m => h m m

theorem modify (g : Machine → Machine) : Quiet (modify g : Exec Unit) := nofun

theorem ite {c d : Exec α} {q : Prop} [Decidable q] (hc : Quiet c) (hd : Quiet d) :
    Quiet (if q then c else d) := by
  split
  · exact hc
  · exact hd

theorem fault (e : RuntimeError) : Quiet (MonadExcept.throw (Interrupt.fault e) : Exec α) :=
  .throw fun j same => by obtain ⟨_ | _, _⟩ := j <;> cases same

theorem faultAt (fault : Fault) : Quiet (faultAt span fault : Exec α) := .fault _

theorem suspended : Quiet (MonadExcept.throw Interrupt.suspended : Exec α) :=
  .throw fun j same => by obtain ⟨_ | _, _⟩ := j <;> cases same

theorem returned (v : Variable) : Quiet (MonadExcept.throw (Interrupt.returned v) : Exec α) :=
  .throw fun j same => by obtain ⟨_ | _, _⟩ := j <;> cases same

theorem finish {c : Exec Variable} (h : Quiet c) : Quiet (finish c) := h.bind fun _ => .pure _

theorem goOn {c : Exec Unit} (h : Quiet c) : Quiet (goOn c) := h.bind fun _ => .pure _

theorem check (r : Except Fault α) : Quiet (check span r) := by
  cases r with
  | ok a => exact .pure a
  | error fault => exact .faultAt fault

theorem checkHeap (f : Heap → Except Fault α) : Quiet (checkHeap span f) := .get fun m => .check (f m.heap)

theorem crash (c : Crash) : Quiet (crash c : Exec α) :=
  .throw fun j same => by obtain ⟨_ | _, _⟩ := j <;> cases same

theorem checkCrash (crash? : Heap → Option Crash) (f : Heap → Except Fault α) : Quiet (checkCrash span crash? f) := by
  refine .get fun m => ?_
  cases crash? m.heap with
  | some c => exact .crash c
  | none => exact .checkHeap f

theorem convert (v : Variable) (ty : Ty) : Quiet (convert span v ty) := .checkCrash _ _

theorem checkStorage (f : Heap → Except Fault (α × Heap)) : Quiet (checkStorage span f) :=
  .bind (.checkHeap f) fun _ => .bind (.modify _) fun _ => .pure _

theorem operands : Quiet operands := .get fun m => .pure m.own.operands

theorem read (storage : Storage) : Quiet (read span storage) := by
  refine .get fun m => ?_
  cases m.read? storage with
  | some v => exact .pure v
  | none =>
    cases storage with
    | var => exact .faultAt _
    | cell => exact .crash _

theorem element (container : Variable) (index : Int32) (elem : Ty) (grow : Bool) :
    Quiet (element span container index elem grow) := by
  have extended (ref : Ref) (position : Nat) : Quiet (extendArray span ref position elem) :=
    .ite (.faultAt _) (.bind (.checkHeap _) fun _ => .modify _)
  exact .bind (.check _) fun ref => .ite (.faultAt _) (.get fun _ =>
    .ite (.pure _) (.ite (.bind (extended ref _) fun _ => .pure _) (.faultAt _)))

theorem follow {ι : Type} (grow : Bool) (path : List (Access ι)) (indices : List Variable) (storage : Storage) :
    Quiet (follow span grow path indices storage) := by
  induction path generalizing indices storage with
  | nil => exact .pure _
  | cons access path ih =>
    cases access with
    | field => exact .bind (.read _) fun _ => .bind (.check _) fun _ => ih _ _
    | index => exact .bind (.read _) fun _ => .bind (.check _) fun _ => .bind (.element _ _ _ _) fun _ => ih _ _

theorem locate {ι : Type} (place : Place ι) (grow : Bool) : Quiet (locate span place grow) :=
  .bind (.read _) fun _ => .bind .operands fun _ => .follow _ _ _ _

theorem store (storage : Storage) (v : Variable) : Quiet (store span storage v) :=
  .bind (.read _) fun _ => .bind (.checkCrash _ _) fun _ => .bind (.modify _) fun _ => .pure _

theorem undefinedValue (ty : Ty) : Quiet (undefinedValue span ty) := by
  cases ty with
  | array => exact .bind .operands fun _ => .bind (.check _) fun _ => .checkStorage _
  | _ => exact .pure _

theorem declare (v : Variable) : Quiet (declare v) := .bind (.modify _) fun _ => .pure _

theorem readInit (storage : Storage) : Quiet (readInit span storage) :=
  .bind (.read _) fun _ => .ite (.pure _) (.faultAt _)

theorem load (place : Place Instr) : Quiet (load span place) := .bind (.locate _ _) fun _ => .readInit _

theorem operate (op : BinaryOp) (left right : Variable) (ty : Ty) : Quiet (operate span op left right ty) :=
  .checkCrash _ _

theorem assign (place : Place Instr) (op : Option BinaryOp) (operandTy : Ty) (v : Variable) :
    Quiet (assign span place op operandTy v) := by
  refine .bind (.locate _ _) fun storage => ?_
  cases op with
  | none => exact .store _ _
  | some => exact .bind (.read _) fun _ => .bind (.operate _ _ _ _) fun _ => .store _ _

theorem step (place : Place Instr) (up before : Bool) : Quiet (step span place up before) :=
  .bind (.locate _ _) fun _ => .bind (.read _) fun _ => .bind (.check _) fun _ => .bind (.modify _) fun _ => .pure _

theorem binary (op : BinaryOp) (operandTy : Ty) (right : Variable) : Quiet (binary span op operandTy right) := by
  refine .bind .operands fun vs => ?_
  cases vs.head? with
  | some => exact .operate _ _ _ _
  | none => exact .faultAt _

theorem list (ty : Ty) : Quiet (list span ty) := .bind .operands fun _ => .checkStorage _

theorem catches (filter : Variable) (code : Int32) : Quiet (catches span filter code) :=
  .ite (.check _) (.bind (.check _) fun _ => .pure _)

theorem enterCallee (f : Function) (room : Nat) : Quiet (enterCallee span f room) := by
  refine .bind .operands fun _ => .bind (.modify _) fun _ => .bind (.checkCrash _ _) fun params => ?_
  refine .ite (.faultAt _) (.bind (fun m j => ?_) fun _ => .modify _)
  unfold placeCallee
  split
  · nofun
  · exact faultAt .notRestored m j

theorem callNative (id : NativeId) (f : NativeFn) (ret : Ty) : Quiet (callNative span id f ret) := by
  have answer (outcome : NativeOutcome) : Quiet (answered span ret outcome) := by
    cases outcome with
    | done v => exact .convert v ret
    | suspend => exact .get fun _ => .bind (.modify _) fun _ => .suspended
    | fault code => exact .faultAt _
    | crashed c => exact .crash c
  exact .get fun _ => .get fun _ => .bind (.get fun _ => .bind (.modify _) fun _ => .pure _) fun outcome =>
    .ite (.faultAt _) (answer outcome)

theorem spend : Quiet (spend span) :=
  .get fun _ => .ite (.faultAt _) (.ite .suspended (.modify fun _ => _))

end Quiet

/-- Out of its body a construct takes the jumps that were compiled to leave it, and passes all others on. -/
theorem absorb_jump (j : Jump) (b : Breakable) (next : Exec Unit) :
    absorb b.label b.isLoop next (.error j.interrupt) =
      if j.takenBy b then if j.isBreak then finish void else goOn next else throw j.interrupt := by
  obtain ⟨_ | _, label⟩ := j <;> simp [absorb, Jump.interrupt, Jump.takenBy]

end Exec

/-- What follows a statement beneath an instruction of this form heeds the jumps out of it: one that the form takes
ends it or goes on with its next turn, and any other is passed on. -/
def Form.Heeds {ι : Type} (form : Form ι) (follow : Except Interrupt Variable → Exec (Option Variable)) : Prop :=
  ∀ j : Jump, follow (.error j.interrupt) =
    if form.breakable?.any j.takenBy then if j.isBreak then finish void else goOn (setPosition form.nextTurn 0)
    else MonadExcept.throw j.interrupt

/-- A move of an instruction of this form raises no jump, and executes statements beneath it so that it heeds the
jumps out of them. -/
def Move.Heeds (p : Program) (form : Form Instr) : Move → Prop
  | .run c follow => (∀ o, (∀ j, o ≠ .error (Jump.interrupt j)) → Quiet (follow o)) ∧
      ((c ∈ form.expressions ∨ ∃ g ∈ p.functions, c = g.body) ∨ c ∈ form.statements ∧ form.Heeds follow)
  | .act action => Quiet action
  | _ => True

namespace Move.Heeds

variable {p : Program} {form : Form Instr} {c : Instr} {span : Span} {f : Frame Variable}

/-- What follows a part is quiet if it is so however the part ends but with a jump. -/
theorem quiet_cases {follow : Except Interrupt Variable → Exec (Option Variable)} (value : ∀ v, Quiet (follow (.ok v)))
    (suspended : Quiet (follow (.error .suspended))) (returned : ∀ v, Quiet (follow (.error (.returned v))))
    (fault : ∀ e, Quiet (follow (.error (.fault e)))) (crashed : ∀ c, Quiet (follow (.error (.crashed c)))) (o : Except Interrupt Variable)
    (h : ∀ j, o ≠ .error (Jump.interrupt j)) : Quiet (follow o) := by
  cases o with
  | ok v => exact value v
  | error e =>
    cases e with
    | suspended => exact suspended
    | breakTo target => exact absurd rfl (h ⟨true, target⟩)
    | continueTo target => exact absurd rfl (h ⟨false, target⟩)
    | returned v => exact returned v
    | fault e => exact fault e
    | crashed c => exact crashed c

theorem quiet_eval {follow : Variable → Exec (Option Variable)} (quiet : ∀ v, Quiet (follow v)) :
    ∀ o : Except Interrupt Variable, (∀ j, o ≠ .error (Jump.interrupt j)) →
      Quiet (match o with
        | .ok v => follow v
        | .error interrupt => throw interrupt) :=
  quiet_cases quiet .suspended .returned .fault .crash

theorem expression {follow : Variable → Exec (Option Variable)} (part : c ∈ form.expressions)
    (quiet : ∀ v, Quiet (follow v)) : (Move.eval c follow).Heeds p form :=
  ⟨quiet_eval quiet, .inl (.inl part)⟩

theorem test {follow : Bool → Exec (Option Variable)} (part : c ∈ form.expressions) (quiet : ∀ b, Quiet (follow b)) :
    (Move.test c follow).Heeds p form :=
  expression part fun _ => .bind (.check _) quiet

theorem statement {follow : Variable → Exec (Option Variable)} (part : c ∈ form.statements)
    (alone : form.breakable? = none) (quiet : ∀ v, Quiet (follow v)) : (Move.eval c follow).Heeds p form := by
  refine ⟨quiet_eval quiet, .inr ⟨part, fun j => ?_⟩⟩
  rw [alone]
  rfl

theorem body {label : Option String} {isLoop : Bool} {next : Exec Unit} (part : c ∈ form.statements)
    (own : form.breakable? = some ⟨label, isLoop⟩) (quiet : Quiet next)
    (turn : isLoop = true → next = setPosition form.nextTurn 0) :
    (Move.run c (absorb label isLoop next)).Heeds p form := by
  refine ⟨quiet_cases (fun _ => .goOn quiet) .suspended .returned .fault .crash, .inr ⟨part, fun j => ?_⟩⟩
  · rw [own, Option.any_some, absorb_jump j ⟨label, isLoop⟩]
    by_cases taken : j.takenBy ⟨label, isLoop⟩ = true
    · rw [if_pos taken, if_pos taken]
      cases breaks : j.isBreak with
      | true => rfl
      | false =>
        have loops : isLoop = true := by
          rw [Jump.takenBy, breaks] at taken
          simpa using (Bool.and_eq_true_iff.1 taken).1
        rw [turn loops]
    · rw [if_neg taken, if_neg taken]

theorem sequence {items : List Instr} {index : Int} {state : Nat} {afterwards : Exec (Option Variable)}
    (parts : items ⊆ form.expressions) (quiet : Quiet afterwards) :
    (Move.sequence items index state afterwards).Heeds p form := by
  unfold Move.sequence
  cases found : itemAt? items index with
  | none => exact quiet
  | some item => exact expression (parts (mem_of_itemAt? found)) fun _ => .goOn (.modify _)

theorem collect {items : List Instr} {index : Int} {afterwards : Exec (Option Variable)}
    (parts : items ⊆ form.expressions) (quiet : Quiet afterwards) :
    (Move.collect items index afterwards).Heeds p form := by
  unfold Move.collect
  cases found : itemAt? items index with
  | none => exact quiet
  | some item =>
    exact expression (parts (mem_of_itemAt? found)) fun _ => .goOn (.bind (.modify _) fun _ => .modify _)

theorem ofBlock (body : List Instr) : (Move.ofBlock body f).Heeds p (.block body) := by
  unfold Move.ofBlock
  cases found : itemAt? body f.index with
  | none => exact Quiet.finish (.pure _)
  | some s =>
    dsimp only
    split
    · trivial
    · exact statement (mem_of_itemAt? found) rfl fun _ => .goOn (.modify _)

theorem ofDeclare (var : VarId) (name : String) (ty : Ty) (dims : List Instr) (init : Option Instr) :
    (Move.ofDeclare span var name ty dims init f).Heeds p (.declare var name ty dims init) := by
  unfold Move.ofDeclare
  split
  · exact collect (List.subset_append_left _ _) (.goOn (.modify _))
  · cases init with
    | some init =>
      exact expression (List.mem_append_right _ List.mem_cons_self) fun _ =>
        .finish (.bind (.convert _ _) fun _ => .declare _)
    | none => exact Quiet.finish (.bind (.undefinedValue _) fun _ => .declare _)

theorem ofBranch (cond yes : Instr) (no : Option Instr) :
    (Move.ofBranch cond yes no f).Heeds p (.branch cond yes no) := by
  unfold Move.ofBranch
  split
  · exact test List.mem_cons_self fun _ => .goOn (.modify _)
  · exact statement List.mem_cons_self rfl fun _ => .finish (.pure _)
  · cases no with
    | some no => exact statement (List.mem_cons_of_mem _ List.mem_cons_self) rfl fun _ => .finish (.pure _)
    | none => exact Quiet.finish (.pure _)

theorem quiet_tested (state : Nat) (b : Bool) : Quiet (if b then goOn (setPosition state 0) else finish void) :=
  .ite (.goOn (.modify _)) (.finish (.pure _))

theorem ofWhile (label : Option String) (cond body : Instr) :
    (Move.ofWhile span label cond body f).Heeds p (.whileLoop label cond body) := by
  unfold Move.ofWhile
  split
  · exact test List.mem_cons_self (quiet_tested 1)
  · trivial
  · exact Heeds.body List.mem_cons_self rfl (.modify _) fun _ => rfl

theorem ofDoWhile (label : Option String) (body cond : Instr) :
    (Move.ofDoWhile span label body cond f).Heeds p (.doWhile label body cond) := by
  unfold Move.ofDoWhile
  split
  · trivial
  · exact Heeds.body List.mem_cons_self rfl (.modify _) fun _ => rfl
  · exact test List.mem_cons_self (quiet_tested 0)

theorem ofFor (label : Option String) (init : List Instr) (cond : Option Instr) (next : List Instr) (body : Instr) :
    (Move.ofFor span label init cond next body f).Heeds p (.forLoop label init cond next body) := by
  unfold Move.ofFor
  split
  · exact sequence (fun _ h => List.mem_append_left _ (List.mem_append_left _ h)) (.goOn (.modify _))
  · cases cond with
    | some cond =>
      exact test (List.mem_append_left _ (List.mem_append_right _ List.mem_cons_self)) (quiet_tested 2)
    | none => exact Quiet.goOn (.modify _)
  · trivial
  · exact Heeds.body List.mem_cons_self rfl (.modify _) fun _ => rfl
  · exact sequence (List.subset_append_right _ _) (.goOn (.modify _))

theorem ofSwitch (label : Option String) (value : Instr) (cases_ : List Case) (body : List Instr) :
    (Move.ofSwitch span label value cases_ body f).Heeds p (.switch label value cases_ body) := by
  unfold Move.ofSwitch
  split
  · refine expression List.mem_cons_self fun v => .bind (.check _) fun n => ?_
    cases chooseCase cases_ n with
    | some => exact .goOn (.modify _)
    | none => exact .finish (.pure _)
  · cases found : itemAt? body f.index with
    | none => exact Quiet.finish (.pure _)
    | some s =>
      dsimp only
      split
      · trivial
      · exact Heeds.body (mem_of_itemAt? found) rfl (.modify _) nofun

theorem ofTry (body : Instr) (cs : List (Catch Instr)) : (Move.ofTry body cs f).Heeds p (.tryCatch body cs) := by
  unfold Move.ofTry
  split
  · refine ⟨quiet_cases (fun _ => .finish (.pure _)) .suspended .returned (fun _ => ?_) .crash,
      .inr ⟨List.mem_cons_self, fun j => ?_⟩⟩
    · exact .ite (.faultAt _) (.goOn (.bind (.modify _) fun _ => .modify _))
    · obtain ⟨_ | _, _⟩ := j <;> rfl
  · cases caughtCode? f.operands with
    | none => exact Quiet.faultAt _
    | some code =>
      cases found : itemAt? cs f.index with
      | none => exact Quiet.faultAt _
      | some c =>
        have clause := mem_of_itemAt? found
        dsimp only
        split
        · exact statement (List.mem_cons_of_mem _ (List.mem_map_of_mem clause)) rfl fun _ => .finish (.pure _)
        · exact expression (List.mem_map_of_mem clause) fun _ => .bind (.catches _ _) fun _ =>
            .ite (.goOn (.modify _)) (.goOn (.modify _))

theorem ofCall (callee : Callee) (args : List Instr) (ret : Ty) :
    (Move.ofCall p span callee args ret f).Heeds p (.call callee args ret) := by
  unfold Move.ofCall
  split
  · exact collect (List.Subset.refl _) (.goOn (.modify _))
  · cases callee with
    | native id =>
      dsimp only
      cases p.env.natives.get? id with
      | none => exact Quiet.faultAt _
      | some g => trivial
    | user id =>
      dsimp only
      cases found : p.function? id with
      | none => exact Quiet.faultAt _
      | some g =>
        dsimp only
        split
        · trivial
        · exact ⟨quiet_cases (fun _ => .finish (.ite (.pure _) (.faultAt _))) .suspended
            (fun _ => .finish (.convert _ _)) .fault .crash, .inl (.inr ⟨g, List.mem_of_getElem? found, rfl⟩)⟩

end Move.Heeds

/-- An instruction with a frame of its own heeds the jumps out of the statements beneath it. -/
theorem Instr.move_heeds (p : Program) {i : Instr} (framed : i.isLeaf = false) (f : Frame Variable) :
    (i.move p f).Heeds p i.form := by
  unfold Instr.move
  unfold isLeaf at framed
  split
  · exact Quiet.goOn (.modify _)
  · cases form : i.form with
    | block => exact .ofBlock _
    | declList => exact .sequence (List.Subset.refl _) (.finish (.pure _))
    | declare => exact .ofDeclare _ _ _ _ _
    | branch => exact .ofBranch _ _ _
    | whileLoop => exact .ofWhile _ _ _
    | doWhile => exact .ofDoWhile _ _ _
    | forLoop => exact .ofFor _ _ _ _ _
    | switch => exact .ofSwitch _ _ _ _
    | tryCatch => exact .ofTry _ _
    | call => exact .ofCall _ _ _
    | ret value =>
      cases value with
      | none => rw [form] at framed; cases framed
      | some => exact .expression List.mem_cons_self fun _ => .returned _
    | throw => exact .expression List.mem_cons_self fun _ => .bind (.check _) fun _ => .faultAt _
    | load => exact .collect (List.Subset.refl _) (.finish (.load _))
    | step => exact .collect (List.Subset.refl _) (.finish (.step _ _ _))
    | list => exact .collect (List.Subset.refl _) (.finish (.list _))
    | store =>
      dsimp only
      unfold Move.ofStore
      split
      · exact .collect (List.subset_append_left _ _) (.goOn (.modify _))
      · exact .expression (List.mem_append_right _ List.mem_cons_self) fun _ => .finish (.assign _ _ _ _)
    | binary =>
      dsimp only
      unfold Move.ofBinary
      split
      · exact .expression List.mem_cons_self fun _ => .goOn (.bind (.modify _) fun _ => .modify _)
      · exact .expression (List.mem_cons_of_mem _ List.mem_cons_self) fun _ => .finish (.binary _ _ _)
    | logical =>
      dsimp only
      unfold Move.ofLogical
      split
      · exact .expression List.mem_cons_self fun _ => .bind (.check _) fun _ => .ite (.goOn (.modify _)) (.finish (.pure _))
      · exact .expression (List.mem_cons_of_mem _ List.mem_cons_self) fun _ =>
          .finish (.bind (.check _) fun _ => .pure _)
    | unary => exact .expression List.mem_cons_self fun _ => .finish (.check _)
    | ternary =>
      dsimp only
      unfold Move.ofTernary
      split
      · exact .test List.mem_cons_self fun _ => .goOn (.modify _)
      · exact .expression (List.mem_cons_of_mem _ List.mem_cons_self) fun _ => .finish (.pure _)
      · exact .expression (List.mem_cons_of_mem _ (List.mem_cons_of_mem _ List.mem_cons_self)) fun _ => .finish (.pure _)
    | convert => exact .expression List.mem_cons_self fun _ => .finish (.convert _ _)
    | _ => rw [form] at framed; cases framed

variable {p : Program} {env : Environment} {bs : List Breakable} {room : Nat} {i c : Instr} {j : Jump} {m : Machine}

/-- A jump out of a statement leads to a construct around it. -/
structure Aiming (env : Environment) (run : Instr → Machine → Result Variable → Prop) : Prop where
  aims : ∀ {c m r bs j}, run c m r → c.Stated env bs → r.1 = .error (Jump.interrupt j) → j.Aims bs

/-- How an instruction goes on with a jump out of a part: it is the construct that the jump was compiled to leave
and takes it, or it passes the jump on to a construct further out. -/
inductive Instr.Meets (j : Jump) (bs : List Breakable) (i : Instr)
    (follow : Except Interrupt Variable → Exec (Option Variable)) : Prop
  | takes {b : Breakable} (own : i.form.breakable? = some b) (suits : j.suits b = true) (taken : j.takenBy b = true)
      (goes : follow (.error j.interrupt) =
        if j.isBreak then finish void else goOn (setPosition i.form.nextTurn 0))
  | passes (unsuited : ∀ b, i.form.breakable? = some b → j.suits b = false) (aims : j.Aims bs)
      (goes : follow (.error j.interrupt) = throw j.interrupt)

theorem Instr.Stated.meets {f : Frame Variable} {follow : Except Interrupt Variable → Exec (Option Variable)}
    (hi : i.Stated env bs) (functions : ∀ g ∈ p.functions, g.body.Stated env []) (framed : i.isLeaf = false)
    (move : i.move p f = .run c follow) (aims : ∀ bs', c.Stated env bs' → j.Aims bs') : i.Meets j bs follow := by
  have heeds := i.move_heeds p framed f
  rw [move] at heeds
  obtain ⟨_, _, statements, expressions⟩ := hi
  -- Out of an expression or a function body there would be nothing for the jump to aim at.
  obtain ⟨_, (expression | ⟨g, hg, rfl⟩) | ⟨statement, goes⟩⟩ := heeds
  · exact absurd (aims [] (expressions c expression).stated) Jump.not_aims_nil
  · exact absurd (aims [] (functions g hg)) Jump.not_aims_nil
  · have aims := aims _ (statements c statement)
    have goes := goes j
    cases own : i.form.breakable? with
    | none =>
      rw [own] at goes aims
      exact .passes (fun b same => by cases own.symm.trans same) aims goes
    | some b =>
      rw [own] at goes aims
      rcases aims.cons_cases with ⟨taken, suits⟩ | ⟨passed, unsuited, aims⟩
      · exact .takes own suits taken (goes.trans (if_pos taken))
      · refine .passes (fun b' same => ?_) aims (goes.trans (if_neg (Bool.eq_false_iff.1 passed)))
        cases own.symm.trans same
        exact unsuited

theorem Turn.aims {run : Instr → Machine → Result Variable → Prop} {r : Result (Option Variable)}
    (h : Turn run p room i m r) (hi : i.Stated env bs) (functions : ∀ g ∈ p.functions, g.body.Stated env [])
    (framed : i.isLeaf = false) (below : Aiming env run) (raised : r.1 = .error j.interrupt) : j.Aims bs := by
  have heeds := i.move_heeds p framed m.own
  cases h with
  | @child c follow o m' move inner =>
    rw [move] at heeds
    -- Only a jump out of the part can be the one that ends the turn.
    by_cases jumps : ∃ k, o = .error (Jump.interrupt k)
    · obtain ⟨k, rfl⟩ := jumps
      cases hi.meets functions framed move fun _ hc => below.aims inner hc rfl with
      | takes _ _ _ goes =>
        rw [goes] at raised
        refine absurd raised (Quiet.ite (.finish (.pure _)) (.goOn (.modify _)) m' j)
      | passes _ aims goes =>
        rw [goes] at raised
        rwa [← Jump.interrupt_inj (Except.error.inj raised)]
    · exact absurd raised (heeds.1 o (not_exists.1 jumps) m' j)
  | pass => exact absurd raised (Quiet.goOn (.bind .spend fun _ => .modify _) m j)
  | enter => exact absurd raised (Quiet.goOn (.enterCallee _ _) m j)
  | invoke => exact absurd raised (Quiet.finish (.callNative _ _ _) m j)
  | act move =>
    rw [move] at heeds
    exact absurd raised (heeds m j)

theorem Turns.aims {run : Instr → Machine → Result Variable → Prop} {r : Result Variable}
    (h : Turns run p room i m r) (hi : i.Stated env bs) (functions : ∀ g ∈ p.functions, g.body.Stated env [])
    (framed : i.isLeaf = false) (below : Aiming env run) (raised : r.1 = .error j.interrupt) : j.Aims bs := by
  induction h with
  | done => cases raised
  | left last => exact last.aims hi functions framed below (congrArg _ (Except.error.inj raised))
  | next _ _ ih => exact ih raised

theorem Exec.jump_of_leaf (raised : (leaf i m).1 = .error j.interrupt) : i.form.jump? = some j := by
  unfold leaf at raised
  cases form : i.form with
  | breakTo label =>
    rw [form] at raised
    exact congrArg some (Jump.interrupt_inj (j := ⟨true, label⟩) (Except.error.inj raised))
  | continueTo label =>
    rw [form] at raised
    exact congrArg some (Jump.interrupt_inj (j := ⟨false, label⟩) (Except.error.inj raised))
  | new => rw [form] at raised; exact absurd raised (Quiet.checkStorage _ m j)
  | load => rw [form] at raised; exact absurd raised (Quiet.readInit _ m j)
  | ret value =>
    rw [form] at raised
    cases value with
    | none => exact absurd raised (Quiet.returned _ m j)
    | some => cases raised
  | _ => rw [form] at raised; cases raised

theorem aiming_executes (functions : ∀ g ∈ p.functions, g.body.Stated env []) (room : Nat) :
    Aiming env (Executes p room) := by
  refine ⟨fun {c m r bs j} h => ?_⟩
  revert bs j
  refine h.induction (Q := fun _ i _ r => ∀ {bs j}, i.Stated env bs → r.1 = .error (Jump.interrupt j) → j.Aims bs)
    (fun {_ i} m _ {_ j} hi raised => ?_) (fun {_ _} m fault {_ j} _ raised => ?_)
    (fun {room i m inside left} framed entered deeper turns {_ j} hi raised => ?_)
  · rw [settle_of_running ((Plain.leaf (i := i) trivial).ne_suspended m)] at raised
    obtain ⟨_, jump, _, _⟩ := hi
    exact jump j (jump_of_leaf raised)
  · exact absurd raised (Quiet.faultAt _ m j)
  · have ended : left.1 = .error j.interrupt := by
      obtain ⟨o, m'⟩ := left
      by_cases suspended : o = .error .suspended
      · cases suspended
        exact raised
      · rwa [leaveFrame_of_running suspended] at raised
    exact turns.aims hi functions framed ⟨fun hr hc raised => deeper _ _ _ hr hc raised⟩ ended

end Tickwise
