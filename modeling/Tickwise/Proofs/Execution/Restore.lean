import Tickwise.Execution.Restore
import Tickwise.Proofs.Machine.InFlight
set_option autoImplicit false

/-!
# The frames that restoring accepts

Restoring stops early at a frame that waits for nothing, at a leaf and at an error, and counts what it has
not reached. What it accepts are the lists of frames in which each one belongs to what the one before it
waits for. The frames of a suspended execution are such a list, and an execution with such frames can go on.
-/
namespace Tickwise

/-- The frame as one that is known to be of the program. -/
def Frame.marked {ν : Type} (f : Frame ν) : Frame ν := { f with live := true }

/-- A frame that is not known to be one of the program. -/
def Frame.unmarked {ν : Type} (f : Frame ν) : Frame ν := { f with live := false }

def Execution.unmarked {ν : Type} (x : Execution ν) : Execution ν :=
  { x with frames := x.frames.map Frame.unmarked }

theorem Frame.map_marked_unmarked {ν : Type} (fs : List (Frame ν)) :
    (fs.map Frame.unmarked).map Frame.marked = fs.map Frame.marked := by
  rw [List.map_map]
  rfl

theorem Frame.map_marked_of_live {ν : Type} {fs : List (Frame ν)} (live : ∀ f ∈ fs, f.live = true) :
    fs.map Frame.marked = fs := by
  conv => rhs; rw [← List.map_id fs]
  refine List.map_congr_left fun f hf => ?_
  have mark := live f hf
  obtain ⟨⟩ := f
  cases mark
  rfl

namespace Program

variable {ν : Type} {p : Program} {i : Instr} {frames : List (Frame ν)}

/-- Frames, outermost first, of which the first belongs to an instruction and each other one to the child or
the function body that the one before it waits for. The last one waits for no function. -/
inductive Path (p : Program) : Instr → List (Frame ν) → Prop
  | last {i : Instr} {f : Frame ν} (node : f.node = i.id)
      (known : i.waiting f.state f.index ≠ .invalid)
      (settled : ∀ id, i.waiting f.state f.index ≠ .callee id) : Path p i [f]
  | child {i c : Instr} {f g : Frame ν} {rest : List (Frame ν)} (node : f.node = i.id)
      (waits : i.waiting f.state f.index = .child c) (parts : c.isLeaf = false)
      (inner : Path p c (g :: rest)) : Path p i (f :: g :: rest)
  | callee {i : Instr} {id : FunctionId} {h : Function} {f g : Frame ν} {rest : List (Frame ν)}
      (node : f.node = i.id) (waits : i.waiting f.state f.index = .callee id)
      (found : p.function? id = some h) (call : g.call = true)
      (inner : Path p h.body (g :: rest)) : Path p i (f :: g :: rest)

/-- The frames of an execution are a path from the body of the function that was started. -/
def OnPath (p : Program) (x : Execution ν) : Prop :=
  x.frames = [] ∨ ∃ f own rest, p.function? x.entry = some f ∧ x.frames = own :: rest ∧
    own.call = true ∧ Path p f.body (own :: rest)

/-- What restoring does with frames, by what the first one waits for. -/
inductive Checks (p : Program) (i : Instr) (depth : Nat) (f : Frame ν) (rest : List (Frame ν)) :
    Option RestoreError × List (Frame ν) → Prop
  | mismatch (other : f.node ≠ i.id) : Checks p i depth f rest (some (.frameMismatch depth i.id f.node), f :: rest)
  | last (node : f.node = i.id) (known : i.waiting f.state f.index ≠ .invalid)
      (settled : ∀ id, i.waiting f.state f.index ≠ .callee id)
      (bare : ∀ c, i.waiting f.state f.index = .child c → c.isLeaf = true) :
      Checks p i depth f rest (none, f.marked :: rest)
  | invalid (node : f.node = i.id) (lost : i.waiting f.state f.index = .invalid) :
      Checks p i depth f rest (some (.badPosition depth f.state f.index), f.marked :: rest)
  | unknown {id : FunctionId} (node : f.node = i.id) (waits : i.waiting f.state f.index = .callee id)
      (missing : p.function? id = none) : Checks p i depth f rest (some (.unknownFunction id), f.marked :: rest)
  | uncalled {id : FunctionId} {h : Function} (node : f.node = i.id) (waits : i.waiting f.state f.index = .callee id)
      (found : p.function? id = some h) (alone : rest.head?.any Frame.call = false) :
      Checks p i depth f rest (some (.badPosition depth f.state f.index), f.marked :: rest)
  | child {c : Instr} {error : Option RestoreError} {inner : List (Frame ν)} (node : f.node = i.id)
      (waits : i.waiting f.state f.index = .child c) (parts : c.isLeaf = false)
      (result : p.restoreFrames c (depth + 1) rest = (error, inner)) :
      Checks p i depth f rest (error, f.marked :: inner)
  | callee {id : FunctionId} {h : Function} {error : Option RestoreError} {inner : List (Frame ν)}
      (node : f.node = i.id) (waits : i.waiting f.state f.index = .callee id) (found : p.function? id = some h)
      (entered : rest.head?.any Frame.call = true)
      (result : p.restoreFrames h.body (depth + 1) rest = (error, inner)) :
      Checks p i depth f rest (error, f.marked :: inner)

theorem Checks.eq {depth : Nat} {f : Frame ν} {rest : List (Frame ν)} {r : Option RestoreError × List (Frame ν)}
    (h : Checks p i depth f rest r) : p.restoreFrames i depth (f :: rest) = r := by
  rw [restoreFrames]
  cases h with
  | mismatch other => rw [if_pos other]
  | last node known settled bare =>
    rw [if_neg (Decidable.not_not.2 node)]
    cases waits : i.waiting f.state f.index with
    | idle => rfl
    | child c => exact if_pos (bare c waits)
    | callee id => exact absurd waits (settled id)
    | invalid => exact absurd waits known
  | invalid node lost => rw [if_neg (Decidable.not_not.2 node), lost]; rfl
  | unknown node waits missing => rw [if_neg (Decidable.not_not.2 node), waits]; dsimp only; rw [missing]; rfl
  | uncalled node waits found alone =>
    rw [if_neg (Decidable.not_not.2 node), waits]
    dsimp only
    rw [found]
    dsimp only
    rw [alone]
    rfl
  | child node waits parts result =>
    rw [if_neg (Decidable.not_not.2 node), waits]
    dsimp only
    rw [parts, result]
    rfl
  | callee node waits found entered result =>
    rw [if_neg (Decidable.not_not.2 node), waits]
    dsimp only
    rw [found]
    dsimp only
    rw [entered, result]
    rfl

theorem exists_checks (p : Program) (i : Instr) (depth : Nat) (f : Frame ν) (rest : List (Frame ν)) :
    ∃ r, Checks p i depth f rest r := by
  by_cases node : f.node = i.id
  · cases waits : i.waiting f.state f.index with
    | idle => exact ⟨_, .last node (by simp [waits]) (by simp [waits]) (by simp [waits])⟩
    | child c =>
      cases parts : c.isLeaf with
      | true => exact ⟨_, .last node (by simp [waits]) (by simp [waits]) (by simp [waits, parts])⟩
      | false => exact ⟨_, .child node waits parts rfl⟩
    | callee id =>
      cases found : p.function? id with
      | none => exact ⟨_, .unknown node waits found⟩
      | some h =>
        cases entered : rest.head?.any Frame.call with
        | true => exact ⟨_, .callee node waits found entered rfl⟩
        | false => exact ⟨_, .uncalled node waits found entered⟩
    | invalid => exact ⟨_, .invalid node waits⟩
  · exact ⟨_, .mismatch node⟩

theorem restoreFrames_cons_iff {depth : Nat} {f : Frame ν} {rest : List (Frame ν)}
    {r : Option RestoreError × List (Frame ν)} :
    p.restoreFrames i depth (f :: rest) = r ↔ Checks p i depth f rest r := by
  refine ⟨?_, Checks.eq⟩
  rintro rfl
  obtain ⟨r, h⟩ := exists_checks p i depth f rest
  rwa [h.eq]

theorem restoreFrames_marks (p : Program) (i : Instr) (depth : Nat) (frames : List (Frame ν)) :
    ∃ reached left, frames = reached ++ left ∧
      (p.restoreFrames i depth frames).2 = reached.map Frame.marked ++ left := by
  induction frames generalizing i depth with
  | nil => exact ⟨[], [], rfl, rfl⟩
  | cons f rest ih =>
    generalize result : p.restoreFrames i depth (f :: rest) = r
    cases restoreFrames_cons_iff.1 result with
    | mismatch => exact ⟨[], f :: rest, rfl, rfl⟩
    | last | invalid | unknown | uncalled => exact ⟨[f], rest, rfl, rfl⟩
    | @child c _ _ _ _ _ inner =>
      obtain ⟨reached, left, parts, marks⟩ := ih c (depth + 1)
      rw [inner] at marks
      exact ⟨f :: reached, left, congrArg (f :: ·) parts, congrArg (f.marked :: ·) marks⟩
    | @callee _ h _ _ _ _ _ _ inner =>
      obtain ⟨reached, left, parts, marks⟩ := ih h.body (depth + 1)
      rw [inner] at marks
      exact ⟨f :: reached, left, congrArg (f :: ·) parts, congrArg (f.marked :: ·) marks⟩

theorem Path.restoreFrames (h : Path p i frames) (depth : Nat) :
    p.restoreFrames i depth frames = (none, frames.map Frame.marked) := by
  induction h generalizing depth with
  | @last i f node known settled =>
    refine Checks.eq ?_
    by_cases bare : ∀ c, i.waiting f.state f.index = .child c → c.isLeaf = true
    · exact .last node known settled bare
    · obtain ⟨c, parts⟩ := Classical.not_forall.1 bare
      obtain ⟨waits, parts⟩ := Classical.not_imp.1 parts
      exact .child node waits (Bool.eq_false_iff.2 parts) rfl
  | child node waits parts inner ih => exact Checks.eq (.child node waits parts (ih _))
  | callee node waits found call inner ih => exact Checks.eq (.callee node waits found call (ih _))

theorem eq_nil_of_live (dead : ∀ f ∈ frames, f.live = false) (live : ∀ f ∈ frames, f.live = true) : frames = [] := by
  rw [List.eq_nil_iff_forall_not_mem]
  intro f hf
  simpa [dead f hf] using live f hf

theorem path_of_restoreFrames {depth : Nat} {restored : List (Frame ν)}
    (dead : ∀ f ∈ frames, f.live = false)
    (accepted : p.restoreFrames i depth frames = (none, restored))
    (live : ∀ f ∈ restored, f.live = true) : frames = [] ∨ Path p i frames := by
  induction frames generalizing i depth restored with
  | nil => exact .inl rfl
  | cons f rest ih =>
    right
    have rest_dead := (List.forall_mem_cons.1 dead).2
    cases restoreFrames_cons_iff.1 accepted with
    | last node known settled =>
      -- the frames that restoring stops at the head of are not marked, so there are none of them
      obtain rfl : rest = [] := eq_nil_of_live rest_dead (List.forall_mem_cons.1 live).2
      exact .last node known settled
    | child node waits parts result =>
      have path := ih rest_dead result (List.forall_mem_cons.1 live).2
      cases rest with
      | nil => exact .last node (by rw [waits]; nofun) (by rw [waits]; nofun)
      | cons g rest => exact .child node waits parts (path.resolve_left (List.cons_ne_nil _ _))
    | callee node waits found entered result =>
      have path := ih rest_dead result (List.forall_mem_cons.1 live).2
      cases rest with
      | nil => cases entered
      | cons g rest => exact .callee node waits found entered (path.resolve_left (List.cons_ne_nil _ _))

def unreached (frames : List (Frame ν)) : Option RestoreError :=
  let left := frames.countP fun f => !f.live
  if left = 0 then none else some (.unreachable left)

theorem unreached_eq_none : unreached frames = none ↔ ∀ f ∈ frames, f.live = true := by
  have counted : frames.countP (fun f => !f.live) = 0 ↔ ∀ f ∈ frames, f.live = true := by
    simp [List.countP_eq_zero]
  rw [← counted]
  unfold unreached
  dsimp only
  split <;> simp_all

/-- What restoring does with an execution. -/
inductive Verifies (p : Program) (x : Execution ν) : Option RestoreError × Execution ν → Prop
  | idle (empty : x.frames = []) : Verifies p x (none, x)
  | unknown {f : Frame ν} {rest : List (Frame ν)} (frames : x.frames = f :: rest)
      (missing : p.function? x.entry = none) : Verifies p x (some (.unknownFunction x.entry), x)
  | uncalled {g : Function} {f : Frame ν} {rest : List (Frame ν)} (frames : x.frames = f :: rest)
      (found : p.function? x.entry = some g) (call : f.call = false) :
      Verifies p x (some (.badPosition 0 f.state f.index), x)
  | checked {g : Function} {f : Frame ν} {rest restored : List (Frame ν)} {error : Option RestoreError}
      (frames : x.frames = f :: rest) (found : p.function? x.entry = some g) (call : f.call = true)
      (result : p.restoreFrames g.body 0 x.frames = (error, restored)) :
      Verifies p x (error.or (unreached restored), { x with frames := restored })

variable {x : Execution ν}

theorem verifies (p : Program) (x : Execution ν) : Verifies p x (p.restore x) := by
  unfold restore
  split
  case h_1 empty => exact .idle empty
  case h_2 f rest frames =>
    split
    case h_1 missing => exact .unknown frames missing
    case h_2 g found =>
      split
      case isTrue call => exact .uncalled frames found (by simpa using call)
      case isFalse call => exact .checked frames found (by simpa using call) rfl

theorem Verifies.eq {r : Option RestoreError × Execution ν} (h : Verifies p x r) : p.restore x = r := by
  unfold Program.restore
  cases h with
  | idle empty => rw [empty]
  | unknown frames missing => simp only [frames, missing]
  | uncalled frames found call => simp only [frames, found, call]; rfl
  | checked frames found call result =>
    rw [frames] at result
    simp only [frames, found, call, result]
    rfl

theorem restore_iff_verifies {r : Option RestoreError × Execution ν} : p.restore x = r ↔ Verifies p x r := by
  refine ⟨?_, Verifies.eq⟩
  rintro rfl
  exact verifies ..

theorem restore_marks (p : Program) (x : Execution ν) :
    ∃ reached left, x.frames = reached ++ left ∧
      (p.restore x).2 = { x with frames := reached.map Frame.marked ++ left } := by
  generalize result : p.restore x = r
  cases restore_iff_verifies.1 result with
  | idle | unknown | uncalled => exact ⟨[], x.frames, rfl, rfl⟩
  | @checked g _ _ _ _ _ _ _ inner =>
    obtain ⟨reached, left, parts, marks⟩ := p.restoreFrames_marks g.body 0 x.frames
    rw [inner] at marks
    exact ⟨reached, left, parts, congrArg (fun frames => { x with frames := frames }) marks⟩

theorem OnPath.restore (h : p.OnPath x) :
    p.restore x = (none, { x with frames := x.frames.map Frame.marked }) := by
  rcases h with empty | ⟨f, own, rest, found, frames, call, path⟩
  · rw [Verifies.eq (.idle empty)]
    obtain ⟨⟩ := x
    cases empty
    rfl
  · rw [← frames] at path
    have reached : unreached (x.frames.map Frame.marked) = none := by
      rw [unreached_eq_none]
      intro g hg
      obtain ⟨g', _, rfl⟩ := List.mem_map.1 hg
      rfl
    rw [Verifies.eq (.checked frames found call (path.restoreFrames 0)), reached]
    rfl

theorem onPath_of_restore (dead : ∀ f ∈ x.frames, f.live = false)
    (accepted : (p.restore x).1 = none) : p.OnPath x := by
  generalize result : p.restore x = r at accepted
  cases restore_iff_verifies.1 result with
  | idle empty => exact .inl empty
  | unknown => cases accepted
  | uncalled => cases accepted
  | @checked f own rest restored error frames found call inner =>
    obtain ⟨rfl, reached⟩ := Option.or_eq_none_iff.1 accepted
    have path := path_of_restoreFrames dead inner (unreached_eq_none.1 reached)
    rw [frames] at path
    exact .inr ⟨f, own, rest, found, frames, call, path.resolve_left (List.cons_ne_nil _ _)⟩

end Program

variable {p : Program} {i j : Instr} {g : Frame Variable} {frames : List (Frame Variable)}

theorem Program.Path.fits (h : p.Path i frames) : Fits p i (frames.map Frame.marked) := by
  induction h with
  | @last i f node known settled =>
    refine ⟨node, rfl, Form.state_lt_of_waiting known, ?_⟩
    cases waits : i.waiting f.marked.state f.marked.index with
    | idle => rfl
    | child c => trivial
    | callee id => exact absurd waits (settled id)
    | invalid => exact absurd waits known
  | @child i c f g rest node waits parts inner ih =>
    have waits' : i.waiting f.marked.state f.marked.index = .child c := waits
    refine ⟨node, rfl, Instr.state_lt_of_waiting waits' nofun, ?_⟩
    rw [waits']
    exact ih
  | @callee i id h f g rest node waits found call inner ih =>
    have waits' : i.waiting f.marked.state f.marked.index = .callee id := waits
    refine ⟨node, rfl, Instr.state_lt_of_waiting waits' nofun, ?_⟩
    rw [waits']
    exact ⟨h, found, call, ih⟩

theorem Program.fits_restore {x y : Execution Variable} {f : Function}
    (entry : p.function? x.entry = some f) (dead : ∀ f ∈ x.frames, f.live = false)
    (h : p.restore x = (none, y)) : Fits p f.body y.frames := by
  have onPath : p.OnPath x := onPath_of_restore dead (by rw [h])
  obtain ⟨_, rfl⟩ := Prod.mk.inj (onPath.restore.symm.trans h)
  rcases onPath with none | ⟨f', own, rest, entry', frames, _, path⟩
  · dsimp only
    rw [none]
    trivial
  · cases entry.symm.trans entry'
    dsimp only
    rw [frames]
    exact path.fits

theorem InFlight.live (h : InFlight p i frames j g) : ∀ f ∈ frames, f.live = true := by
  induction h with
  | idle _ live _ => simpa using live
  | child _ live _ _ _ ih => exact List.forall_mem_cons.2 ⟨live, ih⟩
  | callee _ live _ _ _ _ ih => exact List.forall_mem_cons.2 ⟨live, ih⟩

theorem InFlight.getLast? (h : InFlight p i frames j g) : frames.getLast? = some g := by
  induction h with
  | idle => rfl
  | child _ _ _ _ _ ih => rw [List.getLast?_cons, ih]; rfl
  | callee _ _ _ _ _ _ ih => rw [List.getLast?_cons, ih]; rfl

theorem InFlight.path (h : InFlight p i frames j g) : p.Path i (frames.map Frame.unmarked) := by
  induction h with
  | @idle i f node live waits =>
    have waits' : i.waiting f.unmarked.state f.unmarked.index = .idle := waits
    exact .last node (by rw [waits']; nofun) fun id => by rw [waits']; nofun
  | @child i c j f g rest node live waits parts inner ih =>
    cases rest with
    | nil => cases inner
    | cons g rest => exact .child node waits parts ih
  | @callee i j id h f g rest node live waits found call inner ih =>
    cases rest with
    | nil => cases inner
    | cons g rest => exact .callee node waits found call ih

theorem InFlight.restore {x : Execution Variable} {f : Function}
    (entry : p.function? x.entry = some f) (call : x.frames.head?.any Frame.call = true)
    (h : InFlight p f.body x.frames j g) : p.restore x.unmarked = (none, x) := by
  have marked : (x.frames.map Frame.unmarked).map Frame.marked = x.frames := by
    rw [Frame.map_marked_unmarked, Frame.map_marked_of_live h.live]
  obtain ⟨programId, entryId, status, frames, result, fault, stop⟩ := x
  cases frames with
  | nil => cases h
  | cons own rest =>
    have onPath : p.OnPath (Execution.unmarked ⟨programId, entryId, status, own :: rest, result, fault, stop⟩) :=
      .inr ⟨f, own.unmarked, rest.map Frame.unmarked, entry, rfl, call, h.path⟩
    rw [onPath.restore]
    unfold Execution.unmarked
    dsimp only
    rw [marked]

theorem Frame.map_marked_append (reached left : List (Frame Variable)) :
    (reached.map Frame.marked ++ left).map Frame.marked = (reached ++ left).map Frame.marked := by
  rw [List.map_append, List.map_append, List.map_map]
  rfl

theorem Frame.map_call_of_marked {fs gs : List (Frame Variable)} (h : fs.map Frame.marked = gs.map Frame.marked) :
    fs.map Frame.call = gs.map Frame.call := by
  have calls := congrArg (List.map Frame.call) h
  rwa [List.map_map, List.map_map] at calls

theorem Program.map_marked_restoreFrames (p : Program) (i : Instr) (depth : Nat)
    (frames : List (Frame Variable)) :
    (p.restoreFrames i depth frames).2.map Frame.marked = frames.map Frame.marked := by
  obtain ⟨reached, left, rfl, marks⟩ := p.restoreFrames_marks i depth frames
  rw [marks, Frame.map_marked_append]

theorem Program.map_call_restoreFrames (p : Program) (i : Instr) (depth : Nat)
    (frames : List (Frame Variable)) :
    (p.restoreFrames i depth frames).2.map Frame.call = frames.map Frame.call :=
  Frame.map_call_of_marked (p.map_marked_restoreFrames i depth frames)

theorem any_head_call {fs gs : List (Frame Variable)} (h : fs.map Frame.call = gs.map Frame.call) :
    fs.head?.any Frame.call = gs.head?.any Frame.call := by
  cases fs <;> cases gs <;> simp_all

theorem Program.frames_restore {x y : Execution Variable} {error : Option RestoreError}
    (h : p.restore x = (error, y)) : y = { x with frames := y.frames } := by
  obtain ⟨_, _, _, marks⟩ := p.restore_marks x
  rw [h] at marks
  dsimp only at marks
  rw [marks]

theorem Program.map_marked_restore (p : Program) (x : Execution Variable) :
    (p.restore x).2.frames.map Frame.marked = x.frames.map Frame.marked := by
  obtain ⟨reached, left, frames, marks⟩ := p.restore_marks x
  rw [marks, frames]
  exact Frame.map_marked_append ..

theorem Program.entry_restore {x y : Execution Variable} {error : Option RestoreError}
    (h : p.restore x = (error, y)) :
    y.entry = x.entry ∧ y.status = x.status ∧ y.frames.map Frame.call = x.frames.map Frame.call := by
  have marks := p.map_marked_restore x
  rw [h] at marks
  rw [frames_restore h]
  exact ⟨rfl, rfl, Frame.map_call_of_marked marks⟩

theorem Program.live_of_restore {x y : Execution Variable} (h : p.restore x = (none, y)) :
    ∀ f ∈ y.frames, f.live = true := by
  generalize result : (none, y) = r at h
  cases restore_iff_verifies.1 h with
  | idle empty =>
    cases result
    rw [empty]
    nofun
  | unknown => cases result
  | uncalled => cases result
  | checked =>
    obtain ⟨accepted, rfl⟩ := Prod.mk.inj result
    exact unreached_eq_none.1 (Option.or_eq_none_iff.1 accepted.symm).2

theorem Program.restore_of_live {x y : Execution Variable} (live : ∀ f ∈ x.frames, f.live = true)
    {error : Option RestoreError} (h : p.restore x = (error, y)) : y = x := by
  obtain ⟨reached, left, frames, marks⟩ := p.restore_marks x
  have same : reached.map Frame.marked = reached :=
    Frame.map_marked_of_live fun f hf => live f (frames ▸ List.mem_append_left _ hf)
  rw [h] at marks
  dsimp only at marks
  rw [marks, same, ← frames]

end Tickwise
