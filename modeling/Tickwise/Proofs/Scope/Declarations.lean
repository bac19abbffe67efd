import Mathlib.Data.List.Basic
import Tickwise.Scope.Stack
set_option autoImplicit false

/-!
# Declarations in sight

What a stack of scopes answers after any operations: no group of frames declares a name twice, a name means its
latest declaration in the innermost frame that has one, a frame that is closed again leaves all names as they were,
and the error is the first one.
-/
namespace Tickwise.ScopeStack

/-- What a stack of scopes is asked to do. -/
inductive Op where
  | push (isBlock : Bool)
  | pop
  | declare (span : Span) (v : Variable)
  | find (name : String)
  | lookup (name : String) (span : Span)
  | setError (cause : CompileError.Cause) (span : Span)
  | resetError

def apply (s : ScopeStack) : Op → ScopeStack
  | .push isBlock => s.push isBlock
  | .pop => s.pop
  | .declare span v => (s.declare span v).2
  | .find _ => s
  | .lookup name span => (s.lookup name span).2
  | .setError cause span => s.recordError cause span
  | .resetError => s.reset.2

def run (s : ScopeStack) (ops : List Op) : ScopeStack := ops.foldl apply s

/-- Operations that close each frame that they open, and no other. -/
inductive Balanced : List Op → Prop
  | nil : Balanced []
  | declare {ops : List Op} (span : Span) (v : Variable) (rest : Balanced ops) : Balanced (.declare span v :: ops)
  | find {ops : List Op} (name : String) (rest : Balanced ops) : Balanced (.find name :: ops)
  | lookup {ops : List Op} (name : String) (span : Span) (rest : Balanced ops) : Balanced (.lookup name span :: ops)
  | setError {ops : List Op} (cause : CompileError.Cause) (span : Span) (rest : Balanced ops) :
      Balanced (.setError cause span :: ops)
  | frame {inside ops : List Op} (isBlock : Bool) (within : Balanced inside) (rest : Balanced ops) :
      Balanced (.push isBlock :: (inside ++ .pop :: ops))

variable {s : ScopeStack} {f block : ScopeFrame} {fs : List ScopeFrame} {name : String} {v : Variable} {ops : List Op}

/-!
## Names and groups
-/

def names (fs : List ScopeFrame) : List String := fs.flatMap fun f => f.vars.filterMap Slot.name

theorem names_cons (f : ScopeFrame) (fs : List ScopeFrame) : names (f :: fs) = f.vars.filterMap Slot.name ++ names fs :=
  List.flatMap_cons

theorem names_append (fs gs : List ScopeFrame) : names (fs ++ gs) = names fs ++ names gs := List.flatMap_append

theorem mem_names_iff : name ∈ names fs ↔ ∃ f ∈ fs, ∃ v ∈ f.vars, v.name = some name := by
  simp [names]

/-- A name is declared in the innermost group: in a frame with no block on top of it. -/
def InGroup (fs : List ScopeFrame) (name : String) : Prop :=
  ∃ inner f outer, fs = inner ++ f :: outer ∧ (∀ g ∈ inner, g.isBlock = false) ∧ name ∈ names [f]

theorem innermostGroup_cons (f : ScopeFrame) (fs : List ScopeFrame) :
    innermostGroup (f :: fs) = f :: if f.isBlock then [] else innermostGroup fs := by
  rw [innermostGroup]
  split <;> rfl

theorem innermostGroup_append (above : ∀ f ∈ fs, f.isBlock = false) (gs : List ScopeFrame) :
    innermostGroup (fs ++ gs) = fs ++ innermostGroup gs := by
  induction fs with
  | nil => rfl
  | cons f fs ih =>
    obtain ⟨first, above⟩ := List.forall_mem_cons.1 above
    rw [List.cons_append, innermostGroup_cons, first, ih above]
    rfl

theorem inGroup_iff : InGroup fs name ↔ name ∈ names (innermostGroup fs) := by
  constructor
  · rintro ⟨inner, f, outer, rfl, above, declared⟩
    rw [innermostGroup_append above, names_append, innermostGroup_cons, names_cons]
    rw [names_cons] at declared
    exact List.mem_append_right _ (List.mem_append_left _ (by simpa [names] using declared))
  · induction fs with
    | nil => nofun
    | cons f fs ih =>
      intro declared
      rw [innermostGroup_cons, names_cons] at declared
      rcases List.mem_append.1 declared with own | further
      · exact ⟨[], f, fs, rfl, nofun, List.mem_append_left _ own⟩
      · split at further
        case isTrue => cases further
        case isFalse plain =>
          obtain ⟨inner, g, outer, rfl, above, declared⟩ := ih further
          exact ⟨f :: inner, g, outer, rfl, List.forall_mem_cons.2 ⟨Bool.eq_false_iff.2 plain, above⟩, declared⟩

instance (fs : List ScopeFrame) (name : String) : Decidable (InGroup fs name) := decidable_of_iff _ inGroup_iff.symm

theorem isDuplicate_iff : s.isDuplicate name = true ↔ InGroup s.frames name := by
  rw [inGroup_iff]
  simp [isDuplicate, mem_names_iff]

theorem error_recordError (s : ScopeStack) (cause : CompileError.Cause) (span : Span) :
    (s.recordError cause span).error = s.error.or (some ⟨cause, span⟩) := by
  unfold recordError
  cases h : s.error with
  | none => rfl
  | some e => exact h

theorem frames_recordError (s : ScopeStack) (cause : CompileError.Cause) (span : Span) :
    (s.recordError cause span).frames = s.frames := by
  unfold recordError
  split <;> rfl

theorem frames_lookup (s : ScopeStack) (name : String) (span : Span) : (s.lookup name span).2.frames = s.frames := by
  unfold lookup
  split
  · rfl
  · exact frames_recordError ..

/-- A declaration is refused as a duplicate, or where no frame is open, or becomes the latest of the innermost frame. -/
theorem declare_outcome (s : ScopeStack) (span : Span) (v : Variable) :
    InGroup s.frames (v.name.getD "") ∧ s.declare span v = (false, s.recordError .duplicateSymbol span) ∨
    s.frames = [] ∧ s.declare span v = (false, s) ∨
    ¬ InGroup s.frames (v.name.getD "") ∧ ∃ f fs, s.frames = f :: fs ∧
      s.declare span v = (true, { s with frames := { f with vars := v :: f.vars } :: fs }) := by
  unfold declare
  split
  case isTrue duplicate => exact .inl ⟨isDuplicate_iff.1 duplicate, rfl⟩
  case isFalse fresh =>
    rw [isDuplicate_iff] at fresh
    cases frames : s.frames with
    | nil => exact .inr (.inl ⟨rfl, rfl⟩)
    | cons f fs => exact .inr (.inr ⟨frames ▸ fresh, f, fs, rfl, rfl⟩)

theorem declare_eq_true_iff (opened : s.frames ≠ []) (span : Span) (v : Variable) :
    (s.declare span v).1 = true ↔ ¬ InGroup s.frames (v.name.getD "") := by
  rcases s.declare_outcome span v with ⟨duplicate, refused⟩ | ⟨empty, _⟩ | ⟨fresh, _, _, _, declared⟩
  · rw [refused]
    exact iff_of_false Bool.false_ne_true (not_not_intro duplicate)
  · exact absurd empty opened
  · rw [declared]
    exact iff_of_true rfl fresh

theorem frames_declare_of_false {span : Span} (fails : (s.declare span v).1 = false) :
    (s.declare span v).2.frames = s.frames := by
  rcases s.declare_outcome span v with ⟨_, refused⟩ | ⟨_, refused⟩ | ⟨_, _, _, _, declared⟩
  · rw [refused]
    exact frames_recordError ..
  · rw [refused]
  · rw [declared] at fails
    cases fails

theorem frames_declare_of_true {span : Span} (succeeds : (s.declare span v).1 = true) :
    ∃ f fs, s.frames = f :: fs ∧ (s.declare span v).2.frames = { f with vars := v :: f.vars } :: fs := by
  rcases s.declare_outcome span v with ⟨_, refused⟩ | ⟨_, refused⟩ | ⟨_, f, fs, frames, declared⟩
  · rw [refused] at succeeds
    cases succeeds
  · rw [refused] at succeeds
    cases succeeds
  · exact ⟨f, fs, frames, by rw [declared]⟩

/-- From each frame outward, no name is declared twice up to the nearest block. -/
def Distinct (fs : List ScopeFrame) : Prop := ∀ gs, gs <:+ fs → (names (innermostGroup gs)).Nodup

theorem distinct_nil : Distinct [] := by
  intro gs suffix
  rw [List.suffix_nil.1 suffix]
  exact .nil

namespace Distinct

theorem cons_iff : Distinct (f :: fs) ↔ (names (innermostGroup (f :: fs))).Nodup ∧ Distinct fs := by
  simp only [Distinct, List.suffix_cons_iff, forall_eq_or_imp]

theorem group {inner above outer : List ScopeFrame} (h : Distinct (inner ++ above ++ block :: outer))
    (isBlock : block.isBlock = true) (plain : ∀ f ∈ above, f.isBlock = false) : (names (above ++ [block])).Nodup := by
  rw [List.append_assoc] at h
  have distinct := h (above ++ block :: outer) (List.suffix_append inner _)
  rwa [innermostGroup_append plain, innermostGroup_cons, if_pos isBlock] at distinct

theorem tail (h : Distinct fs) : Distinct fs.tail := fun gs suffix => h gs (suffix.trans (List.tail_suffix fs))

theorem push (h : Distinct fs) (isBlock : Bool) : Distinct (⟨isBlock, [], none, none⟩ :: fs) := by
  refine cons_iff.2 ⟨?_, h⟩
  rw [innermostGroup_cons, names_cons, List.filterMap_nil, List.nil_append]
  split
  · exact .nil
  · exact h fs (List.suffix_refl fs)

theorem declare (h : Distinct (f :: fs)) (fresh : ¬ InGroup (f :: fs) (v.name.getD "")) :
    Distinct ({ f with vars := v :: f.vars } :: fs) := by
  obtain ⟨group, rest⟩ := cons_iff.1 h
  refine cons_iff.2 ⟨?_, rest⟩
  rw [inGroup_iff] at fresh
  rw [innermostGroup_cons, names_cons] at group fresh ⊢
  cases named : v.name with
  | none => rwa [List.filterMap_cons_none named]
  | some name =>
    rw [named] at fresh
    rw [List.filterMap_cons_some named]
    exact List.nodup_cons.2 ⟨fresh, group⟩

theorem apply (h : Distinct s.frames) (op : Op) : Distinct (s.apply op).frames := by
  cases op with
  | push isBlock => exact h.push isBlock
  | pop => exact h.tail
  | find name => exact h
  | resetError => exact distinct_nil
  | setError cause span => exact (frames_recordError s cause span).symm ▸ h
  | lookup name span => exact (frames_lookup s name span).symm ▸ h
  | declare span v =>
    change Distinct (s.declare span v).2.frames
    rcases s.declare_outcome span v with ⟨_, refused⟩ | ⟨_, refused⟩ | ⟨fresh, f, fs, frames, declared⟩
    · rwa [refused, frames_recordError]
    · rwa [refused]
    · rw [declared]
      rw [frames] at h fresh
      exact h.declare fresh

theorem run (h : Distinct s.frames) (ops : List Op) : Distinct (s.run ops).frames := by
  induction ops generalizing s with
  | nil => exact h
  | cons op ops ih => exact ih (h.apply op)

end Distinct

/-!
## What names mean
-/

theorem find?_eq_some_iff : s.find? name = some v ↔ ∃ inner f outer later earlier, s.frames = inner ++ f :: outer ∧
    name ∉ names inner ∧ f.vars = later ++ v :: earlier ∧ v.name = some name ∧ ∀ u ∈ later, u.name ≠ some name := by
  unfold find?
  rw [List.findSome?_eq_some_iff]
  constructor
  · rintro ⟨inner, f, outer, frames, found, none⟩
    obtain ⟨named, later, earlier, vars, others⟩ := List.find?_eq_some_iff_append.1 found
    refine ⟨inner, f, outer, later, earlier, frames, fun declared => ?_, vars, of_decide_eq_true named, fun u hu => ?_⟩
    · obtain ⟨g, hg, u, hu, same⟩ := mem_names_iff.1 declared
      simpa [same] using List.find?_eq_none.1 (none g hg) u hu
    · simpa using others u hu
  · rintro ⟨inner, f, outer, later, earlier, frames, none, vars, named, others⟩
    refine ⟨inner, f, outer, frames, ?_, fun g hg => ?_⟩
    · refine List.find?_eq_some_iff_append.2 ⟨decide_eq_true named, later, earlier, vars, fun u hu => ?_⟩
      simpa using others u hu
    · refine List.find?_eq_none.2 fun u hu same => none ?_
      exact mem_names_iff.2 ⟨g, hg, u, hu, of_decide_eq_true same⟩

theorem find?_eq_none_iff : s.find? name = none ↔ name ∉ names s.frames := by
  simp [find?, mem_names_iff]

theorem run_append (s : ScopeStack) (ops ops' : List Op) : s.run (ops ++ ops') = (s.run ops).run ops' := List.foldl_append

theorem Balanced.frames_run (h : Balanced ops) (frames : s.frames = f :: fs) : ∃ g, (s.run ops).frames = g :: fs := by
  induction h generalizing s f fs with
  | nil => exact ⟨f, frames⟩
  | find name _ ih => exact ih frames
  | lookup name span _ ih => exact ih ((frames_lookup ..).trans frames)
  | setError cause span _ ih => exact ih ((frames_recordError ..).trans frames)
  | declare span v _ ih =>
    change ∃ g, ((s.declare span v).2.run _).frames = g :: fs
    rcases s.declare_outcome span v with ⟨_, refused⟩ | ⟨_, refused⟩ | ⟨_, f', fs', frames', declared⟩
    · rw [refused]
      exact ih ((frames_recordError ..).trans frames)
    · rw [refused]
      exact ih frames
    · cases frames.symm.trans frames'
      rw [declared]
      exact ih rfl
  | @frame inside ops isBlock _ _ within rest =>
    have opened : (s.push isBlock).frames = ⟨isBlock, [], none, none⟩ :: f :: fs := congrArg _ frames
    obtain ⟨g, before⟩ := within opened
    change ∃ g, ((s.push isBlock).run (inside ++ .pop :: ops)).frames = g :: fs
    rw [run_append]
    exact rest (congrArg List.tail before)

theorem Balanced.frames_closed (h : Balanced ops) (s : ScopeStack) (isBlock : Bool) :
    (s.run (.push isBlock :: (ops ++ [.pop]))).frames = s.frames := by
  obtain ⟨g, before⟩ := h.frames_run (s := s.push isBlock) rfl
  change ((s.push isBlock).run (ops ++ [.pop])).frames = s.frames
  rw [run_append]
  exact congrArg List.tail before

/-!
## Errors
-/

def report? (s : ScopeStack) : Op → Option CompileError
  | .declare span v => if InGroup s.frames (v.name.getD "") then some ⟨.duplicateSymbol, span⟩ else none
  | .lookup name span => if name ∈ names s.frames then none else some ⟨.undefinedSymbol, span⟩
  | .setError cause span => some ⟨cause, span⟩
  | _ => none

def reports (s : ScopeStack) : List Op → List CompileError
  | [] => []
  | op :: ops => (s.report? op).toList ++ (s.apply op).reports ops

theorem error_lookup (s : ScopeStack) (name : String) (span : Span) : (s.lookup name span).2.error =
    s.error.or (if name ∈ names s.frames then none else some ⟨.undefinedSymbol, span⟩) := by
  unfold lookup
  cases found : s.find? name with
  | none =>
    rw [if_neg (find?_eq_none_iff.1 found)]
    exact error_recordError ..
  | some v =>
    have declared : name ∈ names s.frames := by
      by_contra undeclared
      rw [find?_eq_none_iff.2 undeclared] at found
      cases found
    rw [if_pos declared]
    exact Option.or_none.symm

theorem error_declare (s : ScopeStack) (span : Span) (v : Variable) : (s.declare span v).2.error =
    s.error.or (if InGroup s.frames (v.name.getD "") then some ⟨.duplicateSymbol, span⟩ else none) := by
  rcases s.declare_outcome span v with ⟨duplicate, refused⟩ | ⟨empty, refused⟩ | ⟨fresh, _, _, _, declared⟩
  · rw [refused, if_pos duplicate]
    exact error_recordError ..
  · have fresh : ¬ InGroup s.frames (v.name.getD "") := by
      rw [inGroup_iff, empty]
      exact List.not_mem_nil
    rw [refused, if_neg fresh]
    exact Option.or_none.symm
  · rw [declared, if_neg fresh]
    exact Option.or_none.symm

/-- A step keeps the error that is there, and otherwise has the one that it reports. -/
theorem error_apply {op : Op} (keeps : op ≠ .resetError) : (s.apply op).error = s.error.or (s.report? op) := by
  cases op with
  | push isBlock => exact Option.or_none.symm
  | pop => exact Option.or_none.symm
  | find name => exact Option.or_none.symm
  | resetError => exact absurd rfl keeps
  | setError cause span => exact error_recordError ..
  | lookup name span => exact error_lookup ..
  | declare span v => exact error_declare ..

theorem error_run (keeps : .resetError ∉ ops) : (s.run ops).error = s.error.or (s.reports ops).head? := by
  induction ops generalizing s with
  | nil => exact Option.or_none.symm
  | cons op ops ih =>
    rw [List.mem_cons, not_or] at keeps
    have head : (s.report? op).toList.head? = s.report? op := by cases s.report? op <;> rfl
    change ((s.apply op).run ops).error = _
    rw [ih keeps.2, error_apply (Ne.symm keeps.1), Option.or_assoc, reports, List.head?_append, head]

theorem error_run_of_last (last : ops = [] ∨ ∃ ops', ops = ops' ++ [.resetError]) (natives : NativeRegistry) :
    ((start natives).run ops).error = none := by
  rcases last with rfl | ⟨ops', rfl⟩
  · rfl
  · rw [run_append]
    rfl

/-- What holds of the stack of scopes that operations lead to. -/
structure Lawful (natives : NativeRegistry) (ops : List Op) (s : ScopeStack) : Prop where
  /-- No name is declared twice in a block frame and the other frames on top of it. -/
  distinct : ∀ inner above block outer, s.frames = inner ++ above ++ block :: outer → block.isBlock = true →
    (∀ f ∈ above, f.isBlock = false) → (names (above ++ [block])).Nodup
  /-- Where a frame is open, a declaration succeeds unless its name is one of the innermost group. -/
  declares : s.frames ≠ [] → ∀ span v, (s.declare span v).1 = true ↔ ¬ InGroup s.frames (v.name.getD "")
  refused : ∀ span v, (s.declare span v).1 = false → (s.declare span v).2.frames = s.frames
  /-- What was declared last comes first in the innermost frame. -/
  latest : ∀ span v, (s.declare span v).1 = true →
    ∃ f fs, s.frames = f :: fs ∧ (s.declare span v).2.frames = { f with vars := v :: f.vars } :: fs
  /-- A name means its latest declaration in the innermost frame that has one. -/
  finds : ∀ name v, s.find? name = some v ↔ ∃ inner f outer later earlier, s.frames = inner ++ f :: outer ∧
    name ∉ names inner ∧ f.vars = later ++ v :: earlier ∧ v.name = some name ∧ ∀ u ∈ later, u.name ≠ some name
  /-- Once a frame is closed, each name means what it did before the frame was opened. -/
  restored : ∀ isBlock inside, Balanced inside → ∀ name,
    (s.run (.push isBlock :: (inside ++ [.pop]))).find? name = s.find? name
  /-- The error is the first one reported since the last reset. -/
  first : ∀ before after, ops = before ++ after → (before = [] ∨ ∃ ops', before = ops' ++ [.resetError]) →
    .resetError ∉ after → s.error = (((start natives).run before).reports after).head?

theorem lawful_run (natives : NativeRegistry) (ops : List Op) : Lawful natives ops ((start natives).run ops) where
  distinct := by
    intro inner above block outer frames isBlock plain
    have distinct : Distinct ((start natives).run ops).frames := distinct_nil.run ops
    rw [frames] at distinct
    exact distinct.group isBlock plain
  declares := declare_eq_true_iff
  refused _ _ := frames_declare_of_false
  latest _ _ := frames_declare_of_true
  finds _ _ := find?_eq_some_iff
  restored := by
    intro isBlock inside balanced name
    unfold find?
    rw [balanced.frames_closed]
  first := by
    rintro before after rfl last keeps
    rw [run_append, error_run keeps, error_run_of_last last, Option.none_or]

example : [true, false].map (fun isBlock =>
    let x : Variable := ⟨some "x", 1, .int, .int 0, none⟩
    let s := (start .empty).run [.push true, .declare ⟨0, 1⟩ x, .push isBlock, .declare ⟨2, 3⟩ { x with id := 2 }]
    ((s.find? "x").map Slot.id, s.error)) = [(some 2, none), (some 1, some ⟨.duplicateSymbol, ⟨2, 3⟩⟩)] := by
  decide

end Tickwise.ScopeStack
