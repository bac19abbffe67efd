import Tickwise.Proofs.Machine.Mirror
import Tickwise.Proofs.Machine.Turns
set_option autoImplicit false

/-!
# Computations on mirrored machines

Two computations go alike under a pairing if from machines that are alike under it, or under a larger one,
they come to alike machines with alike outcomes. Whatever an instruction does between the instructions that
it executes goes alike with itself, given alike values.
-/
namespace Tickwise.Exec

variable {α β γ δ : Type} {R R' : Ref → Ref → Prop} {A : (Ref → Ref → Prop) → α → β → Prop}
  {B : (Ref → Ref → Prop) → γ → δ → Prop} {c : Exec α} {d : Exec β}

/-- Outcomes of a computation: values as `A` says, or interrupts of one kind. -/
abbrev Ends (A : (Ref → Ref → Prop) → α → β → Prop) (R : Ref → Ref → Prop) :
    Except Interrupt α → Except Interrupt β → Prop :=
  Outcomes (Interrupt.Alike R) (A R)

def Alike (R : Ref → Ref → Prop) (A : (Ref → Ref → Prop) → α → β → Prop) (c : Exec α) (d : Exec β) : Prop :=
  ∀ R', R ≤ R' → ∀ m n, m.Alike R' n →
    ∃ R'', R' ≤ R'' ∧ Ends A R'' (c m).1 (d n).1 ∧ (c m).2.Alike R'' (d n).2

/-- Variables that are alike, if there are any. -/
abbrev Maybe (R : Ref → Ref → Prop) : Option Variable → Option Variable → Prop := Option.Rel (Slot.Alike R)

/-- The same plain data. -/
abbrev Same {α : Type} (_ : Ref → Ref → Prop) : α → α → Prop := Eq

theorem checkStorage_apply (span : Span) (f : Heap → Except Fault (α × Heap)) (m : Machine) :
    checkStorage span f m = match f m.heap with
      | .ok (a, heap) => (.ok a, { m with heap := heap })
      | .error fault => (.error (.fault ⟨fault, span⟩), m) := by
  unfold checkStorage
  rw [bind_apply, show checkHeap span f m = check span (f m.heap) m from rfl]
  cases f m.heap <;> rfl

theorem extendArray_eq (span : Span) (ref : Ref) (position : Nat) (elem : Ty) :
    extendArray span ref position elem =
      if position ≥ maxElements then faultAt span .arrayTooLarge
      else checkStorage span fun h => (h.allocArray elem []).map fun made =>
        ((), made.2.extend ref (position + 1) made.1) := by
  unfold extendArray
  split
  · rfl
  · funext m
    rw [checkStorage_apply, bind_apply,
      show checkHeap span (·.allocArray elem []) m = check span (m.heap.allocArray elem []) m from rfl]
    cases m.heap.allocArray elem [] <;> rfl

namespace Alike

theorem pure {a : α} {b : β} (h : ∀ R', R ≤ R' → A R' a b) : Alike R A (pure a) (pure b) :=
  fun R' le _ _ alike => ⟨R', le_refl R', .ok (h R' le), alike⟩

theorem throw {i j : Interrupt} (h : ∀ R', R ≤ R' → i.Alike R' j) :
    Alike R A (throw i : Exec α) (throw j : Exec β) :=
  fun R' le _ _ alike => ⟨R', le_refl R', .error (h R' le), alike⟩

theorem bind {f : α → Exec γ} {g : β → Exec δ} (first : Alike R A c d)
    (second : ∀ R', R ≤ R' → ∀ a b, A R' a b → Alike R' B (f a) (g b)) : Alike R B (c >>= f) (d >>= g) := by
  intro R' le m n alike
  obtain ⟨R₁, le₁, ends, alike₁⟩ := first R' le m n alike
  rw [bind_apply, bind_apply]
  generalize c m = r at ends alike₁
  generalize d n = r' at ends alike₁
  obtain ⟨x, m₁⟩ := r
  obtain ⟨y, n₁⟩ := r'
  cases ends with
  | ok h =>
    obtain ⟨R₂, le₂, ends, alike₂⟩ := second R₁ (le_trans le le₁) _ _ h R₁ (le_refl R₁) m₁ n₁ alike₁
    exact ⟨R₂, le_trans le₁ le₂, ends, alike₂⟩
  | error h => exact ⟨R₁, le₁, .error h, alike₁⟩

theorem withMachine {f : Machine → Exec α} {g : Machine → Exec β}
    (h : ∀ R', R ≤ R' → ∀ m n, m.Alike R' n → Alike R' A (f m) (g n)) :
    Alike R A (do f (← get)) (do g (← get)) :=
  fun R' le m n alike => h R' le m n alike R' (le_refl R') m n alike

theorem modifies {f g : Machine → Machine} (h : ∀ R', R ≤ R' → ∀ m n, m.Alike R' n → (f m).Alike R' (g n)) :
    Alike R Same (modify f) (modify g) :=
  fun R' le m n alike => ⟨R', le_refl R', .ok rfl, h R' le m n alike⟩

theorem ite {q : Prop} [Decidable q] {c' : Exec α} {d' : Exec β} (h : q → Alike R A c d)
    (h' : ¬ q → Alike R A c' d') : Alike R A (if q then c else c') (if q then d else d') := by
  split
  · next hq => exact h hq
  · next hq => exact h' hq

theorem value {v w : Variable} (h : v.Alike R w) :
    Alike R Slot.Alike (Pure.pure v : Exec Variable) (Pure.pure w : Exec Variable) :=
  .pure fun _ le => h.grow le

theorem done (a : α) : Alike R Same (Pure.pure a : Exec α) (Pure.pure a : Exec α) := .pure fun _ _ => rfl

theorem void : Alike R Slot.Alike Exec.void Exec.void := .value (.temp .void)

theorem faultAt (span : Span) (fault : Fault) :
    Alike R A (faultAt span fault : Exec α) (faultAt span fault : Exec β) :=
  .throw fun _ _ => .fault _

theorem finish {c d : Exec Variable} (h : Alike R Slot.Alike c d) :
    Alike R Maybe (finish c) (finish d) :=
  h.bind fun _ _ _ _ alike => .pure fun _ le => .some (alike.grow le)

theorem goOn {c d : Exec Unit} (h : Alike R Same c d) : Alike R Maybe (goOn c) (goOn d) :=
  h.bind fun _ _ _ _ _ => .pure fun _ _ => .none

theorem outcomeOf (h : Alike R A c d) : Alike R (Ends A) (outcomeOf c) (outcomeOf d) := by
  intro R' le m n alike
  obtain ⟨R₁, le₁, ends, alike₁⟩ := h R' le m n alike
  exact ⟨R₁, le₁, .ok ends, alike₁⟩

theorem checkHeap (span : Span) {f : Heap → Except Fault α} {g : Heap → Except Fault β}
    (h : ∀ R', R ≤ R' → ∀ h k : Heap, h.Mirrors R' k → Outcomes Eq (A R') (f h) (g k)) :
    Alike R A (checkHeap span f) (checkHeap span g) := by
  intro R' le m n alike
  have both := h R' le m.heap n.heap alike.heap
  change ∃ R'', R' ≤ R'' ∧ Ends A R'' (Exec.check span (f m.heap) m).1 (Exec.check span (g n.heap) n).1 ∧
    (Exec.check span (f m.heap) m).2.Alike R'' (Exec.check span (g n.heap) n).2
  generalize f m.heap = x at both
  generalize g n.heap = y at both
  cases both with
  | ok h => exact ⟨R', le_refl R', .ok h, alike⟩
  | error same =>
    cases same
    exact ⟨R', le_refl R', .error (.fault _), alike⟩

theorem crash (c : Crash) : Alike R A (crash c : Exec α) (crash c : Exec β) := .throw fun _ _ => .crashed c

theorem checkCrash (span : Span) {crash crash' : Heap → Option Crash} {f : Heap → Except Fault α}
    {g : Heap → Except Fault β} (same : ∀ R', R ≤ R' → ∀ h k : Heap, h.Mirrors R' k → crash h = crash' k)
    (h : ∀ R', R ≤ R' → ∀ h k : Heap, h.Mirrors R' k → Outcomes Eq (A R') (f h) (g k)) :
    Alike R A (checkCrash span crash f) (checkCrash span crash' g) := by
  refine .withMachine fun R' le m n alike => ?_
  rw [same R' le m.heap n.heap alike.heap]
  cases crash' n.heap with
  | some c => exact .crash c
  | none => exact .checkHeap span fun R'' le' => h R'' (le_trans le le')

theorem convert (span : Span) {v w : Variable} (h : v.Alike R w) (ty : Ty) :
    Alike R Slot.Alike (convert span v ty) (convert span w ty) :=
  .checkCrash span (fun _ le _ _ mirrors => Heap.crash?_alike mirrors.alike (h.grow le) ty)
    fun _ le _ _ mirrors => mirrors.alike.convert (h.grow le) ty

theorem check (span : Span) {x : Except Fault α} {y : Except Fault β}
    (h : ∀ R', R ≤ R' → Outcomes Eq (A R') x y) : Alike R A (check span x) (check span y) :=
  checkHeap span fun R' le _ _ _ => h R' le

theorem checkSame (span : Span) {x y : Except Fault α} (h : x = y) :
    Alike R Same (Exec.check span x) (Exec.check span y) :=
  .check span fun _ _ => .of_eq h (fun _ => rfl) fun _ => rfl

theorem checkStorage (span : Span) {f : Heap → Except Fault (α × Heap)} {g : Heap → Except Fault (β × Heap)}
    (h : ∀ R', R ≤ R' → ∀ h k : Heap, h.Mirrors R' k → Outcomes Eq (Heap.Made R' A) (f h) (g k)) :
    Alike R A (checkStorage span f) (checkStorage span g) := by
  intro R' le m n alike
  have both := h R' le m.heap n.heap alike.heap
  rw [checkStorage_apply, checkStorage_apply]
  generalize f m.heap = x at both
  generalize g n.heap = y at both
  cases both with
  | ok made =>
    obtain ⟨R'', le', h, mirrors⟩ := made
    exact ⟨R'', le', .ok h, alike.withHeap le' mirrors⟩
  | error same =>
    cases same
    exact ⟨R', le_refl R', .error (.fault _), alike⟩

theorem own : Alike R (fun R => Frame.Alike (Slot.Alike R)) Exec.own Exec.own :=
  fun R' _ _ _ alike => ⟨R', le_refl R', .ok alike.own, alike⟩

theorem modifyFrame {u u' : Frame Variable → Frame Variable}
    (change : ∀ R', R ≤ R' → ∀ f g, f.Alike (Slot.Alike R') g → (u f).Alike (Slot.Alike R') (u' g)) :
    Alike R Same (modify (·.modifyFrame u)) (modify (·.modifyFrame u')) :=
  .modifies fun R' le _ _ alike => alike.modifyFrame (change R' le)

theorem setPosition (state : Nat) (index : Int) :
    Alike R Same (Exec.setPosition state index) (Exec.setPosition state index) :=
  .modifyFrame fun _ _ _ _ alike => { alike with state := rfl, index := rfl }

theorem nextIndex (state : Nat) : Alike R Same (Exec.nextIndex state) (Exec.nextIndex state) :=
  .modifyFrame fun _ _ _ _ alike => { alike with state := rfl, index := by rw [alike.index] }

theorem operands : Alike R (fun R => List.Forall₂ (Slot.Alike R)) Exec.operands Exec.operands :=
  fun R' _ _ _ alike => ⟨R', le_refl R', .ok alike.own.operands, alike⟩

theorem setOperands {vs ws : List Variable} (h : vs.Forall₂ (Slot.Alike R) ws) :
    Alike R Same (Exec.setOperands vs) (Exec.setOperands ws) :=
  .modifyFrame fun _ le _ _ alike => { alike with operands := h.imp fun _ _ slot => slot.grow le }

theorem pushOperand {v w : Variable} (h : v.Alike R w) :
    Alike R Same (Exec.pushOperand v) (Exec.pushOperand w) :=
  .modifyFrame fun _ le _ _ alike =>
    { alike with operands := List.rel_append alike.operands (.cons (h.grow le) .nil) }

theorem openScope : Alike R Same Exec.openScope Exec.openScope :=
  .modifyFrame fun _ _ _ _ alike => { alike with scope := rfl }

theorem spend (span : Span) : Alike R Same (Exec.spend span) (Exec.spend span) := by
  intro R' _ m n alike
  rw [spend_apply, spend_apply, alike.stop, alike.budget, alike.taken]
  split
  · exact ⟨R', le_refl R', .error (.fault _), alike⟩
  · split
    · exact ⟨R', le_refl R', .error .suspended, alike⟩
    · exact ⟨R', le_refl R', .ok rfl, { alike with budget := rfl, taken := rfl, stop := rfl }⟩

theorem settle (h : Alike R A c d) : Alike R A (Exec.settle c) (Exec.settle d) := by
  intro R' le m n alike
  obtain ⟨R₁, le₁, ends, alike₁⟩ := h R' le m n alike
  have settled : Machine.Alike R₁ { (c m).2 with deeper := [] } { (d n).2 with deeper := [] } :=
    { alike₁ with deeper := .nil }
  unfold Exec.settle
  generalize c m = r at ends alike₁ settled
  generalize d n = r' at ends alike₁ settled
  obtain ⟨x, m₁⟩ := r
  obtain ⟨y, n₁⟩ := r'
  refine ⟨R₁, le₁, ?_⟩
  cases ends with
  | ok h => exact ⟨.ok h, settled⟩
  | error h =>
    cases h with
    | suspended => exact ⟨.error .suspended, alike₁⟩
    | breakTo label => exact ⟨.error (.breakTo label), settled⟩
    | continueTo label => exact ⟨.error (.continueTo label), settled⟩
    | returned h => exact ⟨.error (.returned h), settled⟩
    | fault error => exact ⟨.error (.fault error), settled⟩
    | crashed c => exact ⟨.error (.crashed c), settled⟩

theorem inFrame (node : NodeId) (span : Span) (h : Alike R A c d) :
    Alike R A (Exec.inFrame node span c) (Exec.inFrame node span d) := by
  intro R' le m n alike
  have entered := alike.enter? node
  unfold Exec.inFrame
  generalize m.enter? node = o at entered
  generalize n.enter? node = o' at entered
  cases entered with
  | none =>
    have refused : Alike R' A (Exec.settle (Exec.faultAt span .notRestored))
        (Exec.settle (Exec.faultAt span .notRestored)) := settle (.faultAt span _)
    exact refused R' (le_refl R') m n alike
  | @some inside inside' entered =>
    obtain ⟨R₁, le₁, ends, alike₁⟩ := h R' le _ _ entered
    have left := alike₁.leave
    have kept := alike₁.suspend
    unfold leaveFrame
    dsimp only
    generalize c inside = r at ends left kept
    generalize d inside' = r' at ends left kept
    obtain ⟨x, m₁⟩ := r
    obtain ⟨y, n₁⟩ := r'
    refine ⟨R₁, le₁, ?_⟩
    cases ends with
    | ok h => exact ⟨.ok h, left⟩
    | error h =>
      cases h with
      | suspended => exact ⟨.error .suspended, kept⟩
      | breakTo label => exact ⟨.error (.breakTo label), left⟩
      | continueTo label => exact ⟨.error (.continueTo label), left⟩
      | returned h => exact ⟨.error (.returned h), left⟩
      | fault error => exact ⟨.error (.fault error), left⟩
      | crashed c => exact ⟨.error (.crashed c), left⟩

theorem read (span : Span) {s t : Storage} (h : s.Alike R t) :
    Alike R Slot.Alike (Exec.read span s) (Exec.read span t) := by
  refine .withMachine fun R' le m n alike => ?_
  have found := alike.read? (h.grow le)
  generalize m.read? s = o at found
  generalize n.read? t = o' at found
  cases found with
  | some h => exact .value h
  | none =>
    cases h with
    | var id => exact .faultAt span _
    | cell => exact .crash _

theorem extendArray (span : Span) {r q : Ref} (paired : R r q) (position : Nat) (elem : Ty) :
    Alike R Same (Exec.extendArray span r position elem) (Exec.extendArray span q position elem) := by
  rw [extendArray_eq, extendArray_eq]
  refine .ite (fun _ => .faultAt span _) fun _ => .checkStorage span fun R' le h k mirrors => ?_
  refine (mirrors.allocArray elem []).map fun made made' ⟨R'', le', filler, mirrors⟩ => ?_
  exact ⟨R'', le', rfl, mirrors.extend (le' _ _ (le _ _ paired)) (position + 1) filler⟩

theorem element (span : Span) {v w : Variable} (h : v.Alike R w) (index : Int32) (elem : Ty) (grow : Bool) :
    Alike R Storage.Alike (Exec.element span v index elem grow) (Exec.element span w index elem grow) := by
  refine .bind (.check (A := fun R => R) span fun R' le => (h.grow le).toArray) fun R' le r q paired => ?_
  refine .ite (fun _ => .faultAt span _) fun _ => .withMachine fun R₁ le₁ m n alike => ?_
  have paired : R₁ r q := le₁ _ _ paired
  rw [alike.heap.size paired]
  have reached (R₂) (le₂ : R₁ ≤ R₂) : Alike R₂ Storage.Alike
      (Pure.pure (.cell r index.toInt.toNat) : Exec Storage) (Pure.pure (.cell q index.toInt.toNat)) :=
    .pure fun R₃ le₃ => .cell (le₃ _ _ (le₂ _ _ paired)) _
  refine .ite (fun _ => reached R₁ (le_refl R₁)) fun _ => .ite (fun _ => ?_) fun _ => .faultAt span _
  exact .bind (.extendArray span paired _ elem) fun R₂ le₂ _ _ _ => reached R₂ le₂

theorem follow {ι : Type} (span : Span) (grow : Bool) (path : List (Access ι)) {vs ws : List Variable}
    (indices : vs.Forall₂ (Slot.Alike R) ws) {s t : Storage} (h : s.Alike R t) :
    Alike R Storage.Alike (Exec.follow span grow path vs s) (Exec.follow span grow path ws t) := by
  induction path generalizing vs ws s t R with
  | nil => exact .pure fun _ le => h.grow le
  | cons access path ih =>
    cases access with
    | field position =>
      refine .bind (.read span h) fun R₁ le₁ v w container => ?_
      refine .bind (.check (A := fun R x y => x.1 = y.1 ∧ R x.2 y.2) span fun R' le =>
        (container.grow le).toObject) fun R₂ le₂ x y paired => ?_
      have indices := indices.imp fun _ _ slot => slot.grow (le_trans le₁ le₂)
      exact ih indices (.cell paired.2 position)
    | index at_ elem =>
      refine .bind (.read span h) fun R₁ le₁ v w container => ?_
      have first : (vs.head?.map Slot.toInt).getD (.error .uninitialized) =
          (ws.head?.map Slot.toInt).getD (.error .uninitialized) := by
        cases indices with
        | nil => rfl
        | cons first _ => exact first.toInt
      have later : vs.tail.Forall₂ (Slot.Alike R) ws.tail := by
        cases indices with
        | nil => exact .nil
        | cons _ rest => exact rest
      refine .bind (.checkSame span first) fun R₂ le₂ index _ same => ?_
      cases same
      refine .bind (.element span (container.grow le₂) index elem _) fun R₃ le₃ s t storage => ?_
      have le := le_trans le₁ (le_trans le₂ le₃)
      exact ih (later.imp fun _ _ slot => slot.grow le) storage

theorem locate {ι : Type} (span : Span) (place : Place ι) (grow : Bool) :
    Alike R Storage.Alike (Exec.locate span place grow) (Exec.locate span place grow) := by
  refine .bind (.read span (.var place.root)) fun R₁ le₁ _ _ _ => ?_
  exact .bind .operands fun R₂ le₂ vs ws operands => .follow span grow _ operands (.var place.root)

theorem store (span : Span) {s t : Storage} (storage : s.Alike R t) {v w : Variable} (h : v.Alike R w) :
    Alike R Slot.Alike (Exec.store span s v) (Exec.store span t w) := by
  refine .bind (.read span storage) fun R₁ le₁ v' w' target => ?_
  have crashes (R') (le : R₁ ≤ R') (h' k' : Heap) (mirrors : h'.Mirrors R' k') :
      storeCrash? s v'.ty v h' = storeCrash? t w'.ty w k' := by
    rw [target.ty]
    exact mirrors.storeCrash? (storage.grow (le_trans le₁ le)) _ (h.grow (le_trans le₁ le))
  refine .bind (.checkCrash span crashes fun R' le h' k' mirrors =>
    mirrors.alike.assign (target.grow le) (h.grow (le_trans le₁ le))) fun R₂ le₂ v₂ w₂ stored => ?_
  have storage := storage.grow (le_trans le₁ le₂)
  refine .bind (.modifies fun R' le m n alike => alike.write (storage.grow le) (stored.grow le)) ?_
  exact fun R₃ le₃ _ _ _ => .value (stored.toTemp.grow le₃)

theorem readInit (span : Span) {s t : Storage} (storage : s.Alike R t) :
    Alike R Slot.Alike (Exec.readInit span s) (Exec.readInit span t) := by
  refine .bind (.read span storage) fun R₁ le₁ v w h => ?_
  rw [h.isInit]
  exact .ite (fun _ => .value h.toTemp) fun _ => .faultAt span _

theorem load (span : Span) (place : Place Instr) :
    Alike R Slot.Alike (Exec.load span place) (Exec.load span place) :=
  .bind (.locate span place false) fun _ _ _ _ storage => .readInit span storage

theorem operate (span : Span) (op : BinaryOp) (ty : Ty) {v v' w w' : Variable} (left : v.Alike R w)
    (right : v'.Alike R w') : Alike R Slot.Alike (Exec.operate span op v v' ty) (Exec.operate span op w w' ty) := by
  refine .checkCrash span (fun R' le h k mirrors => ?_) fun R' le h k mirrors =>
    mirrors.binary op ty (left.grow le) (right.grow le)
  rw [Heap.crash?_alike mirrors.alike (left.grow le), Heap.crash?_alike mirrors.alike (right.grow le), left.isInit]

theorem assign (span : Span) (place : Place Instr) (op : Option BinaryOp) (operandTy : Ty) {v w : Variable}
    (h : v.Alike R w) :
    Alike R Slot.Alike (Exec.assign span place op operandTy v) (Exec.assign span place op operandTy w) := by
  refine .bind (.locate span place op.isNone) fun R₁ le₁ s t storage => ?_
  cases op with
  | none => exact .store span storage (h.grow le₁)
  | some op =>
    refine .bind (.read span storage) fun R₂ le₂ old old' slot => ?_
    refine .bind (.operate span op operandTy slot.toTemp (h.grow (le_trans le₁ le₂))) ?_
    exact fun R₃ le₃ v w new => .store span (storage.grow (le_trans le₂ le₃)) new

theorem step (span : Span) (place : Place Instr) (up before : Bool) :
    Alike R Slot.Alike (Exec.step span place up before) (Exec.step span place up before) := by
  refine .bind (.locate span place false) fun R₁ le₁ s t storage => ?_
  refine .bind (.read span storage) fun R₂ le₂ old old' slot => ?_
  refine .bind (.check span fun R' le => (slot.grow le).step up) fun R₃ le₃ new new' stepped => ?_
  have storage := storage.grow (le_trans le₂ le₃)
  refine .bind (.modifies fun R' le m n alike => alike.write (storage.grow le) (stepped.grow le)) ?_
  intro R₄ le₄ _ _ _
  cases before with
  | true => exact .value (stepped.toTemp.grow le₄)
  | false => exact .value (slot.toTemp.grow (le_trans le₃ le₄))

theorem binary (span : Span) (op : BinaryOp) (operandTy : Ty) {v w : Variable} (h : v.Alike R w) :
    Alike R Slot.Alike (Exec.binary span op operandTy v) (Exec.binary span op operandTy w) := by
  refine .bind .operands fun R₁ le₁ vs ws operands => ?_
  cases operands with
  | nil => exact .faultAt span _
  | cons left _ =>
    exact .operate span op operandTy left (h.grow le₁)

theorem list (span : Span) (ty : Ty) : Alike R Slot.Alike (Exec.list span ty) (Exec.list span ty) := by
  refine .bind .operands fun R₁ le₁ vs ws operands => .checkStorage span fun R' le h k mirrors => ?_
  exact .ok (mirrors.newArray _ (operands.imp fun _ _ slot => slot.grow le))

theorem undefinedValue (span : Span) (ty : Ty) :
    Alike R Slot.Alike (Exec.undefinedValue span ty) (Exec.undefinedValue span ty) := by
  cases ty with
  | array elem =>
    refine .bind .operands fun R₁ le₁ vs ws operands => ?_
    have sizes : vs.mapM Slot.toInt = ws.mapM Slot.toInt := by
      induction operands with
      | nil => rfl
      | cons first _ ih => rw [List.mapM_cons, List.mapM_cons, first.toInt, ih]
    refine .bind (.checkSame span sizes) fun R₂ le₂ sizes _ same => ?_
    cases same
    exact .checkStorage span fun R' le h k mirrors => mirrors.allocArray _ sizes
  | named cls => exact .value (.temp .null)
  | _ => exact .value (.fresh _)

theorem declare {v w : Variable} (h : v.Alike R w) :
    Alike R Slot.Alike (Exec.declare v) (Exec.declare w) :=
  .bind (.modifies fun _ le _ _ alike => alike.declare (h.grow le)) fun _ _ _ _ _ => .void

theorem catches (span : Span) {v w : Variable} (h : v.Alike R w) (code : Int32) :
    Alike R Same (Exec.catches span v code) (Exec.catches span w code) := by
  unfold Exec.catches
  rw [h.ty]
  refine .ite (fun _ => .checkSame span h.toBool) fun _ => ?_
  refine .bind (.checkSame span h.toInt) fun R₁ le₁ i _ same => ?_
  cases same
  exact .done _

/-- What follows the outcome of an instruction one level deeper goes alike after alike outcomes. -/
abbrev Follows (R : Ref → Ref → Prop) (f g : Except Interrupt Variable → Exec (Option Variable)) : Prop :=
  ∀ R', R ≤ R' → ∀ o o', Ends Slot.Alike R' o o' → Alike R' Maybe (f o) (g o')

theorem interrupted {i j : Interrupt} (h : i.Alike R j) :
    Alike R A (MonadExcept.throw i : Exec α) (MonadExcept.throw j : Exec β) :=
  .throw fun R' le => by
    cases h with
    | returned h => exact .returned (h.grow le)
    | _ => constructor

theorem absorb (label : Option String) (isLoop : Bool) {next : Exec Unit}
    (h : ∀ R', R ≤ R' → Alike R' Same next next) :
    Follows R (Exec.absorb label isLoop next) (Exec.absorb label isLoop next) := by
  intro R' le o o' ends
  cases ends with
  | ok _ => exact .goOn (h R' le)
  | error interrupt =>
    cases interrupt with
    | breakTo target => exact .ite (fun _ => .finish .void) fun _ => .interrupted (.breakTo target)
    | continueTo target => exact .ite (fun _ => .goOn (h R' le)) fun _ => .interrupted (.continueTo target)
    | suspended => exact .interrupted .suspended
    | returned h => exact .interrupted (.returned h)
    | fault error => exact .interrupted (.fault error)
    | crashed c => exact .interrupted (.crashed c)

theorem faultOperands_alike (error : RuntimeError) :
    List.Forall₂ (Slot.Alike R) (faultOperands error) (faultOperands error) := by
  have int (i : Int32) : Slot.Alike R (Slot.ofInt i) (Slot.ofInt i) := .temp (.int i)
  exact .cons (int _) (.cons (int _) (.cons (int _) (.cons (int _) .nil)))

theorem operandsFault_alike {vs ws : List Variable} (h : vs.Forall₂ (Slot.Alike R) ws) :
    operandsFault vs = operandsFault ws := by
  have entries (i : Nat) : (vs[i]?).map Slot.toInt = (ws[i]?).map Slot.toInt := by
    have entry := forall₂_getElem? h i
    generalize vs[i]? = o at entry
    generalize ws[i]? = o' at entry
    cases entry with
    | none => rfl
    | some slot => rw [Option.map_some, Option.map_some, slot.toInt]
  unfold operandsFault
  simp only [entries]

theorem caughtCode?_alike {vs ws : List Variable} (h : vs.Forall₂ (Slot.Alike R) ws) :
    caughtCode? vs = caughtCode? ws := by
  cases h with
  | nil => rfl
  | cons first _ =>
    change (Slot.toInt _).toOption = (Slot.toInt _).toOption
    rw [first.toInt]

theorem attempt : Follows R Exec.attempt Exec.attempt := by
  intro R' le o o' ends
  cases ends with
  | ok _ => exact .finish .void
  | error interrupt =>
    cases interrupt with
    | fault error =>
      refine .ite (fun _ => .interrupted (.fault error)) fun _ => .goOn ?_
      exact .bind (.setOperands (faultOperands_alike error)) fun _ _ _ _ _ => .setPosition 1 0
    | suspended => exact .interrupted .suspended
    | breakTo target => exact .interrupted (.breakTo target)
    | continueTo target => exact .interrupted (.continueTo target)
    | returned h => exact .interrupted (.returned h)
    | crashed c => exact .interrupted (.crashed c)

theorem result (span : Span) (ret : Ty) : Follows R (Exec.result span ret) (Exec.result span ret) := by
  intro R' le o o' ends
  cases ends with
  | ok _ => exact .finish (.ite (fun _ => .void) fun _ => .faultAt span _)
  | error interrupt =>
    cases interrupt with
    | returned h => exact .finish (.convert span h ret)
    | suspended => exact .interrupted .suspended
    | breakTo target => exact .interrupted (.breakTo target)
    | continueTo target => exact .interrupted (.continueTo target)
    | fault error => exact .interrupted (.fault error)
    | crashed c => exact .interrupted (.crashed c)

end Alike

end Tickwise.Exec
