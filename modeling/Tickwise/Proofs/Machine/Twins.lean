import Mathlib.Data.List.Forall2
import Tickwise.Proofs.Execution.Assignments
import Tickwise.Proofs.Storage.Mirror
set_option autoImplicit false

/-!
# Twin expressions

Two compilations of one expression differ in the numbers of their instructions and in the ranges that faults are
reported at. Each executes beneath frames of its own that no variable is declared in. What an expression does between
its parts comes to the same there, and a variable that it does not assign keeps its value.
-/
namespace Tickwise

open Exec

inductive Access.Twin (T : Instr → Instr → Prop) : Access Instr → Access Instr → Prop
  | index {e e' : Instr} (elem : Ty) (h : T e e') : Twin T (.index e elem) (.index e' elem)
  | field (position : Nat) : Twin T (.field position) (.field position)

inductive Place.Twin (T : Instr → Instr → Prop) : Place Instr → Place Instr → Prop
  | mk (root : VarId) (name : String) (ty : Ty) {path path' : List (Access Instr)}
    (h : path.Forall₂ (Access.Twin T) path') : Twin T ⟨root, name, path, ty⟩ ⟨root, name, path', ty⟩

inductive Form.Twin (T : Instr → Instr → Prop) : Form Instr → Form Instr → Prop
  | literal (v : Variable) : Twin T (.literal v) (.literal v)
  | new (cls : ClassLayout) : Twin T (.new cls) (.new cls)
  | load {p p' : Place Instr} (place : p.Twin T p') : Twin T (.load p) (.load p')
  | store {p p' : Place Instr} (place : p.Twin T p') (op : Option BinaryOp) (ty : Ty) {e e' : Instr} (value : T e e') :
    Twin T (.store p op ty e) (.store p' op ty e')
  | step {p p' : Place Instr} (place : p.Twin T p') (up before : Bool) : Twin T (.step p up before) (.step p' up before)
  | binary (op : BinaryOp) (ty : Ty) {l l' r r' : Instr} (left : T l l') (right : T r r') :
    Twin T (.binary op ty l r) (.binary op ty l' r')
  | logical (isAnd : Bool) {l l' r r' : Instr} (left : T l l') (right : T r r') :
    Twin T (.logical isAnd l r) (.logical isAnd l' r')
  | unary (op : UnaryOp) {e e' : Instr} (operand : T e e') : Twin T (.unary op e) (.unary op e')
  | ternary {c c' y y' n n' : Instr} (cond : T c c') (yes : T y y') (no : T n n') :
    Twin T (.ternary c y n) (.ternary c' y' n')
  | convert (target : Ty) {e e' : Instr} (operand : T e e') : Twin T (.convert target e) (.convert target e')
  | call (callee : Callee) {args args' : List Instr} (same : args.Forall₂ T args') (ret : Ty) :
    Twin T (.call callee args ret) (.call callee args' ret)

/-- The same expression but for the numbers and the ranges of its instructions. -/
inductive Instr.Twin : Instr → Instr → Prop
  | mk (id id' : NodeId) (span span' : Span) {form form' : Form Instr} (same : form.Twin Instr.Twin form') :
    Twin (.mk id span form) (.mk id' span' form')

/-- The same interrupt, though a fault may be reported at another range. -/
inductive Interrupt.Matches : Interrupt → Interrupt → Prop
  | same (e : Interrupt) : Matches e e
  | fault (fault : Fault) (span span' : Span) : Matches (.fault ⟨fault, span⟩) (.fault ⟨fault, span'⟩)

/-- Is the variable itself assigned, incremented or decremented here? -/
def Instr.Assigns (x : VarId) (i : Instr) : Prop :=
  ∃ place, place.root = x ∧ place.path = [] ∧
    ((∃ op ty value, i.form = .store place op ty value) ∨ ∃ up before, i.form = .step place up before)

/-- Neither the expression nor a part of it assigns to the variable. -/
def Instr.Spares (x : VarId) (i : Instr) : Prop := ∀ j ∈ i.all, ¬ j.Assigns x

theorem Instr.Spares.part {x : VarId} {i c : Instr} (h : i.Spares x) (hc : c ∈ i.children) : c.Spares x :=
  fun j hj => h j (Instr.mem_all_of_part hc hj)

theorem Instr.Spares.own {x : VarId} {i : Instr} (h : i.Spares x) : ¬ i.Assigns x := h i (Instr.mem_all_self i)

section

variable {T : Instr → Instr → Prop} {p p' : Place Instr} {f f' : Form Instr} {i i' : Instr}

theorem Place.Twin.indices (h : p.Twin T p') : p.indices.Forall₂ T p'.indices := by
  obtain ⟨_, _, _, path⟩ := h
  unfold Place.indices
  induction path with
  | nil => exact .nil
  | cons first _ ih =>
    cases first with
    | index elem same => exact .cons same ih
    | field => exact ih

theorem Form.Twin.children (h : f.Twin T f') : f.children.Forall₂ T f'.children := by
  cases h with
  | literal | new => exact .nil
  | load place | step place => exact place.indices
  | store place _ _ value => exact List.rel_append place.indices (.cons value .nil)
  | binary _ _ left right | logical _ left right => exact .cons left (.cons right .nil)
  | unary _ operand | convert _ operand => exact .cons operand .nil
  | ternary cond yes no => exact .cons cond (.cons yes (.cons no .nil))
  | call _ same => exact same

theorem Form.Twin.isLeaf (h : f.Twin T f') : f.isLeaf = f'.isLeaf := by
  cases h with
  | load place =>
    obtain ⟨_, _, _, path⟩ := place
    cases path <;> rfl
  | _ => rfl

namespace Instr.Twin

theorem form (h : i.Twin i') : i.form.Twin Instr.Twin i'.form := by
  obtain ⟨_, _, _, _, same⟩ := h
  exact same

theorem isLeaf (h : i.Twin i') : i.isLeaf = i'.isLeaf := h.form.isLeaf

theorem children (h : i.Twin i') : i.children.Forall₂ Instr.Twin i'.children := h.form.children

theorem turnBound (h : i.Twin i') : turnBound i = turnBound i' := by
  unfold Exec.turnBound
  rw [h.children.length_eq]

end Instr.Twin

theorem forall₂_left {items items' : List Instr} (h : items.Forall₂ T items') (hi : i ∈ items) : ∃ i', T i i' := by
  induction h with
  | nil => cases hi
  | cons first _ ih =>
    rcases List.mem_cons.1 hi with rfl | hi
    · exact ⟨_, first⟩
    · exact ih hi

theorem forall₂_itemAt? {items items' : List Instr} (h : items.Forall₂ T items') (index : Int) :
    Option.Rel T (itemAt? items index) (itemAt? items' index) := by
  have entries (k : Nat) : Option.Rel T items[k]? items'[k]? := by
    induction h generalizing k with
    | nil => exact .none
    | cons first _ ih =>
      cases k with
      | zero => exact .some first
      | succ k => exact ih k
  unfold itemAt?
  split
  · exact .none
  · exact entries _

end

/-!
## Beneath blank frames
-/

namespace Frame

/-- No variable is declared in the frame, and the search for one goes on further out. -/
structure Blank (f : Frame Variable) : Prop where
  locals : f.locals = []
  call : f.call = false

variable {id x : VarId} {v w : Variable} {fs gs : List (Frame Variable)} {f : Frame Variable}

theorem Blank.local? (h : f.Blank) (id : VarId) : f.local? id = none := by
  unfold Frame.local?
  rw [h.locals]
  rfl

theorem Blank.findVar?_cons (h : f.Blank) : findVar? id (f :: fs) = findVar? id fs := by
  rw [findVar?, h.local?, h.call]
  rfl

theorem Blank.setVar_cons (h : f.Blank) : setVar id v (f :: fs) = f :: setVar id v fs := by
  rw [setVar, h.local?, h.call]
  rfl

theorem findVar?_blank (blank : ∀ f ∈ fs, f.Blank) : findVar? id (fs ++ gs) = findVar? id gs := by
  induction fs with
  | nil => rfl
  | cons f fs ih =>
    rw [List.cons_append, (blank f List.mem_cons_self).findVar?_cons]
    exact ih fun g hg => blank g (List.mem_cons_of_mem _ hg)

theorem setVar_blank (blank : ∀ f ∈ fs, f.Blank) : setVar id v (fs ++ gs) = fs ++ setVar id v gs := by
  induction fs with
  | nil => rfl
  | cons f fs ih =>
    rw [List.cons_append, (blank f List.mem_cons_self).setVar_cons, ih fun g hg => blank g (List.mem_cons_of_mem _ hg)]
    rfl

theorem find?_replaceFirst_of_not {p q : Variable → Bool} (apart : ∀ u, p u = true → q u = false) (hw : q w = false)
    (vs : List Variable) : (replaceFirst p w vs).find? q = vs.find? q := by
  induction vs with
  | nil => rfl
  | cons u vs ih =>
    unfold replaceFirst
    cases hu : p u with
    | true => rw [if_pos rfl, List.find?_cons_of_neg (by simp [hw]), List.find?_cons_of_neg (by simp [apart u hu])]
    | false =>
      rw [if_neg Bool.false_ne_true, List.find?_cons, List.find?_cons, ih]

theorem findVar?_setVar_of_ne (other : id ≠ x) (same : v.id = id) (fs : List (Frame Variable)) :
    findVar? x (setVar id v fs) = findVar? x fs := by
  induction fs with
  | nil => rfl
  | cons f fs ih =>
    have kept : (f.setLocal id v).local? x = f.local? x := by
      unfold Frame.local? setLocal
      rw [List.reverse_reverse]
      refine find?_replaceFirst_of_not (fun u hu => ?_) ?_ _
      · exact decide_eq_false fun hx => other ((of_decide_eq_true hu).symm.trans hx)
      · exact decide_eq_false fun hx => other (same.symm.trans hx)
    unfold setVar
    split
    · unfold findVar?
      rw [kept]
      rfl
    · split
      · rfl
      · unfold findVar?
        rw [ih]

end Frame

/-- The position of an expression in its frame, with the operands. -/
structure Spot where
  state : Nat
  index : Int
  operands : List Variable

def Spot.frame (s : Spot) (node : NodeId) : Frame Variable :=
  { Frame.start node with state := s.state, index := s.index, operands := s.operands }

theorem Spot.blank (s : Spot) (node : NodeId) : (s.frame node).Blank := ⟨rfl, rfl⟩

def Machine.topped (m : Machine) (top left : List (Frame Variable)) : Machine :=
  { m with frames := top ++ m.frames, deeper := left }

namespace Machine

variable {m : Machine} {top : List (Frame Variable)} {id : VarId} {v : Variable}

theorem heap_topped (top left : List (Frame Variable)) : (m.topped top left).heap = m.heap := rfl

theorem findVar?_topped (blank : ∀ f ∈ top, f.Blank) :
    (m.topped top []).findVar? id = Frame.findVar? id m.frames :=
  Frame.findVar?_blank blank

theorem setVar_topped (blank : ∀ f ∈ top, f.Blank) :
    (m.topped top []).setVar id v = { m with frames := Frame.setVar id v m.frames }.topped top [] := by
  have all : (m.topped top []).allFrames = top ++ m.frames := rfl
  unfold setVar
  rw [all, Frame.setVar_blank blank]
  rfl

end Machine

/-- Where twins execute: each beneath blank frames of its own, while a variable has a value that neither assigns. -/
structure Abode where
  left : List (Frame Variable)
  right : List (Frame Variable)
  x : VarId
  value : Variable
  blankLeft : ∀ f ∈ left, f.Blank
  blankRight : ∀ f ∈ right, f.Blank

namespace Abode

def within (a : Abode) (s : Spot) (j k : NodeId) : Abode where
  left := s.frame j :: a.left
  right := s.frame k :: a.right
  x := a.x
  value := a.value
  blankLeft := List.forall_mem_cons.2 ⟨s.blank j, a.blankLeft⟩
  blankRight := List.forall_mem_cons.2 ⟨s.blank k, a.blankRight⟩

def Keeps (a : Abode) (core : Machine) : Prop := Frame.findVar? a.x core.frames = some a.value

end Abode

/-- The same outcome, though a fault may be reported at another range. -/
abbrev Exec.Agree {α : Type} : Except Interrupt α → Except Interrupt α → Prop := Outcomes Interrupt.Matches Eq

/-- The same outcome of twins in their frames, with nothing left beneath these. -/
inductive Abode.Ends {α : Type} (a : Abode) (j k : NodeId) : Result α → Result α → Prop
  | mk (core : Machine) (s : Spot) (keeps : a.Keeps core) {o o' : Except Interrupt α} (agree : Agree o o') :
    Ends a j k (o, core.topped (a.within s j k).left []) (o', core.topped (a.within s j k).right [])

namespace Exec

variable {α β : Type} {a : Abode} {j k : NodeId} {c d : Exec α} {span span' : Span}

/-- What one instruction computes in its frame the other one computes too. -/
structure Similar (a : Abode) (j k : NodeId) (c d : Exec α) : Prop where
  ends : ∀ (core : Machine) (s : Spot), a.Keeps core →
    a.Ends j k (c (core.topped (a.within s j k).left [])) (d (core.topped (a.within s j k).right []))

namespace Similar

theorem seq {f g : α → Exec β} (first : Similar a j k c d)
    (second : ∀ b m m', c m = (.ok b, m') → Similar a j k (f b) (g b)) : Similar a j k (c >>= f) (d >>= g) := by
  refine ⟨fun core s keeps => ?_⟩
  have ends := first.ends core s keeps
  rw [bind_apply, bind_apply]
  cases h : c (core.topped (a.within s j k).left []) with
  | mk o m =>
    cases h' : d (core.topped (a.within s j k).right []) with
    | mk o' m' =>
      rw [h, h'] at ends
      cases ends with
      | mk core' s' keeps' agree =>
        cases agree with
        | ok same =>
          subst same
          exact (second _ _ _ h).ends core' s' keeps'
        | error e => exact .mk core' s' keeps' (.error e)

theorem bind {f g : α → Exec β} (first : Similar a j k c d) (second : ∀ b, Similar a j k (f b) (g b)) :
    Similar a j k (c >>= f) (d >>= g) :=
  first.seq fun b _ _ _ => second b

theorem pure (b : α) : Similar a j k (pure b) (pure b) := ⟨fun core s keeps => .mk core s keeps (.ok rfl)⟩

theorem throw {e e' : Interrupt} (same : e.Matches e') : Similar a j k (throw e : Exec α) (throw e') :=
  ⟨fun core s keeps => .mk core s keeps (.error same)⟩

theorem faultAt (fault : Fault) : Similar a j k (faultAt span fault : Exec α) (faultAt span' fault) :=
  throw (.fault fault span span')

theorem ite {q : Prop} [Decidable q] {c' d' : Exec α} (h : Similar a j k c d) (h' : Similar a j k c' d') :
    Similar a j k (if q then c else c') (if q then d else d') := by
  split
  · exact h
  · exact h'

theorem void : Similar a j k void void := pure _

theorem finish {c d : Exec Variable} (h : Similar a j k c d) : Similar a j k (finish c) (finish d) :=
  h.bind fun _ => pure _

theorem goOn {c d : Exec Unit} (h : Similar a j k c d) : Similar a j k (goOn c) (goOn d) := h.bind fun _ => pure _

theorem check (r : Except Fault α) : Similar a j k (check span r) (check span' r) := by
  cases r with
  | ok b => exact pure b
  | error fault => exact faultAt fault

theorem withHeap {f g : Heap → Exec α} (h : ∀ heap, Similar a j k (f heap) (g heap)) :
    Similar a j k (do f (← get).heap) (do g (← get).heap) :=
  ⟨fun core s keeps => (h core.heap).ends core s keeps⟩

theorem checkHeap (f : Heap → Except Fault α) : Similar a j k (checkHeap span f) (checkHeap span' f) :=
  withHeap fun heap => check (f heap)

theorem checkCrash (crash? : Heap → Option Crash) (f : Heap → Except Fault α) :
    Similar a j k (checkCrash span crash? f) (checkCrash span' crash? f) := by
  refine ⟨fun core s keeps => ?_⟩
  rw [checkCrash_apply, checkCrash_apply, Machine.heap_topped, Machine.heap_topped]
  cases crash? core.heap with
  | some c => exact (throw (.same (.crashed c))).ends core s keeps
  | none => exact (checkHeap f).ends core s keeps

theorem operate (op : BinaryOp) (left right : Variable) (ty : Ty) :
    Similar a j k (operate span op left right ty) (operate span' op left right ty) :=
  checkCrash ..

theorem setHeap (h : Heap) : Similar a j k (modify ({ · with heap := h })) (modify ({ · with heap := h })) :=
  ⟨fun core s keeps => .mk { core with heap := h } s keeps (.ok rfl)⟩

theorem checkStorage (f : Heap → Except Fault (α × Heap)) :
    Similar a j k (checkStorage span f) (checkStorage span' f) :=
  bind (checkHeap f) fun _ => bind (setHeap _) fun _ => pure _

theorem operands : Similar a j k operands operands := ⟨fun core s keeps => .mk core s keeps (.ok rfl)⟩

theorem pushOperand (v : Variable) : Similar a j k (pushOperand v) (pushOperand v) :=
  ⟨fun core s keeps => .mk core { s with operands := s.operands ++ [v] } keeps (.ok rfl)⟩

theorem setPosition (state : Nat) (index : Int) : Similar a j k (setPosition state index) (setPosition state index) :=
  ⟨fun core s keeps => .mk core { s with state := state, index := index } keeps (.ok rfl)⟩

theorem nextIndex (state : Nat) : Similar a j k (nextIndex state) (nextIndex state) :=
  ⟨fun core s keeps => .mk core { s with state := state, index := s.index + 1 } keeps (.ok rfl)⟩

theorem read (storage : Storage) : Similar a j k (read span storage) (read span' storage) := by
  refine ⟨fun core s keeps => ?_⟩
  rw [read_apply, read_apply]
  cases storage with
  | var id =>
    have found : (core.topped (a.within s j k).left []).read? (.var id) = Frame.findVar? id core.frames :=
      Machine.findVar?_topped (a.within s j k).blankLeft
    have found' : (core.topped (a.within s j k).right []).read? (.var id) = Frame.findVar? id core.frames :=
      Machine.findVar?_topped (a.within s j k).blankRight
    rw [found, found']
    cases Frame.findVar? id core.frames with
    | none => exact .mk core s keeps (.error (.fault ..))
    | some v => exact .mk core s keeps (.ok rfl)
  | cell ref position =>
    have found (top : List (Frame Variable)) :
        (core.topped top []).read? (.cell ref position) = core.heap.read? ref position := rfl
    rw [found, found]
    cases core.heap.read? ref position with
    | none => exact .mk core s keeps (.error (.same _))
    | some v => exact .mk core s keeps (.ok rfl)

theorem write {storage : Storage} {v : Variable} (other : storage ≠ .var a.x)
    (same : ∀ id, storage = .var id → v.id = id) :
    Similar a j k (modify (·.write storage v)) (modify (·.write storage v)) := by
  refine ⟨fun core s keeps => ?_⟩
  cases storage with
  | var id =>
    have apart : id ≠ a.x := fun h => other (congrArg Storage.var h)
    have kept : a.Keeps { core with frames := Frame.setVar id v core.frames } :=
      (Frame.findVar?_setVar_of_ne apart (same id rfl) core.frames).trans keeps
    have written : (core.topped (a.within s j k).left []).write (.var id) v = _ :=
      Machine.setVar_topped (a.within s j k).blankLeft
    have written' : (core.topped (a.within s j k).right []).write (.var id) v = _ :=
      Machine.setVar_topped (a.within s j k).blankRight
    rw [modify_apply, modify_apply, written, written']
    exact .mk _ s kept (.ok rfl)
  | cell ref position => exact .mk { core with heap := core.heap.write ref position v } s keeps (.ok rfl)

theorem extendArray (ref : Ref) (position : Nat) (elem : Ty) :
    Similar a j k (extendArray span ref position elem) (extendArray span' ref position elem) :=
  ite (faultAt _) (bind (checkHeap _) fun made =>
    ⟨fun core s keeps => .mk { core with heap := made.2.extend ref (position + 1) made.1 } s keeps (.ok rfl)⟩)

theorem element (container : Variable) (index : Int32) (elem : Ty) (grow : Bool) :
    Similar a j k (element span container index elem grow) (element span' container index elem grow) := by
  refine bind (check _) fun ref => ite (faultAt _) ?_
  have within (position : Nat) (heap : Heap) : Similar a j k
      (if position < (heap.elements ref).size then return Storage.cell ref position
        else if grow then do
          Exec.extendArray span ref position elem
          return Storage.cell ref position
        else Exec.faultAt span .indexOutOfRange)
      (if position < (heap.elements ref).size then return Storage.cell ref position
        else if grow then do
          Exec.extendArray span' ref position elem
          return Storage.cell ref position
        else Exec.faultAt span' .indexOutOfRange) :=
    ite (pure _) (ite (bind (extendArray ..) fun _ => pure _) (faultAt _))
  exact withHeap (within index.toInt.toNat)

theorem follow {T : Instr → Instr → Prop} {path path' : List (Access Instr)} (same : path.Forall₂ (Access.Twin T) path')
    (grow : Bool) (indices : List Variable) (storage : Storage) :
    Similar a j k (follow span grow path indices storage) (follow span' grow path' indices storage) := by
  induction same generalizing indices storage with
  | nil => exact pure storage
  | @cons access access' path path' first rest ih =>
    cases first with
    | index elem =>
      have empty : path.isEmpty = path'.isEmpty := by cases rest <;> rfl
      refine bind (read _) fun container => bind (check _) fun index => ?_
      rw [empty]
      exact bind (element ..) fun _ => ih _ _
    | field => exact bind (read _) fun container => bind (check _) fun _ => ih _ _

theorem locate {T : Instr → Instr → Prop} {place place' : Place Instr} (same : place.Twin T place') (grow : Bool) :
    Similar a j k (locate span place grow) (locate span' place' grow) := by
  obtain ⟨root, name, ty, path⟩ := same
  exact bind (read _) fun _ => bind operands fun _ => follow path ..

theorem store {storage : Storage} (other : storage ≠ .var a.x) (v : Variable) :
    Similar a j k (store span storage v) (store span' storage v) := by
  refine (read storage).seq fun target m m' found => (checkCrash ..).seq fun stored m₁ m₂ assigned => ?_
  refine bind (write other fun id here => ?_) fun _ => pure _
  subst here
  exact (Heap.id_of_assign (ok_of_checkCrash assigned).1).trans (Frame.id_of_findVar? (ok_of_read found))

theorem readInit (storage : Storage) : Similar a j k (readInit span storage) (readInit span' storage) :=
  bind (read _) fun _ => ite (pure _) (faultAt _)

theorem load {T : Instr → Instr → Prop} {place place' : Place Instr} (same : place.Twin T place') :
    Similar a j k (load span place) (load span' place') :=
  bind (locate same false) readInit

theorem reached {place : Place Instr} {grow : Bool} {storage : Storage} {m m' : Machine}
    (spared : place.root = a.x → place.path ≠ []) (located : Exec.locate span place grow m = (.ok storage, m')) :
    storage ≠ .var a.x := by
  rintro rfl
  obtain ⟨_, m₁, _, h₁⟩ := ok_of_bind located
  obtain ⟨_, m₂, _, h₂⟩ := ok_of_bind h₁
  have root : place.root = a.x := Storage.var.inj (var_of_follow h₂).1
  obtain ⟨_, name, path, ty⟩ := place
  cases path with
  | nil => exact spared root rfl
  | cons access path =>
    cases access with
    | field position =>
      obtain ⟨_, m₃, _, h₃⟩ := ok_of_bind h₂
      obtain ⟨_, m₄, _, h₄⟩ := ok_of_bind h₃
      cases (var_of_follow h₄).1
    | index at_ elem =>
      obtain ⟨_, m₃, _, h₃⟩ := ok_of_bind h₂
      obtain ⟨_, m₄, _, h₄⟩ := ok_of_bind h₃
      obtain ⟨_, m₅, cell, h₅⟩ := ok_of_bind h₄
      obtain ⟨r, k, rfl⟩ := cell_of_element cell
      cases (var_of_follow h₅).1

theorem assign {T : Instr → Instr → Prop} {place place' : Place Instr} (same : place.Twin T place')
    (spared : place.root = a.x → place.path ≠ []) (op : Option BinaryOp) (ty : Ty) (v : Variable) :
    Similar a j k (assign span place op ty v) (assign span' place' op ty v) := by
  refine (locate same _).seq fun storage m m' located => ?_
  have other := reached spared located
  cases op with
  | none => exact store other v
  | some op => exact bind (read _) fun old => bind (operate ..) fun _ => store other _

theorem step {T : Instr → Instr → Prop} {place place' : Place Instr} (same : place.Twin T place')
    (spared : place.root = a.x → place.path ≠ []) (up before : Bool) :
    Similar a j k (step span place up before) (step span' place' up before) := by
  refine (locate same false).seq fun storage m m' located => (read _).seq fun old m₁ m₂ found =>
    (check _).seq fun new m₃ m₄ stepped => ?_
  refine bind (write (reached spared located) fun id here => ?_) fun _ => pure _
  subst here
  exact (Slot.id_of_step (ok_of_check stepped).1).trans (Frame.id_of_findVar? (ok_of_read found))

theorem binary (op : BinaryOp) (ty : Ty) (right : Variable) :
    Similar a j k (binary span op ty right) (binary span' op ty right) := by
  refine bind operands fun vs => ?_
  cases vs.head? with
  | none => exact faultAt _
  | some left => exact operate ..

end Similar
end Exec
end Tickwise
