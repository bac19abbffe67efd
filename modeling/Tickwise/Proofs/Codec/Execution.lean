import Tickwise.Proofs.Codec.Pairing
import Tickwise.Proofs.Execution.Parallel
set_option autoImplicit false

/-!
# Reading back executions

A saved execution is read back at the same positions, with variables that show what was saved, if it passes
what only the reader checks. The stop request and the marks of its frames are not saved.
-/
namespace Tickwise

/-- The fault that is read back: only its code is saved. -/
def RuntimeError.reread (e : RuntimeError) : RuntimeError := ⟨Fault.ofCode e.fault.code, e.span⟩

/-- The variables of a frame, as they are saved. -/
def Frame.slots {ν : Type} (f : Frame ν) : List ν := f.operands ++ f.locals

/-- The variables of an execution, as they are saved. -/
def Execution.slots {ν : Type} (x : Execution ν) : List ν :=
  x.result.toList ++ x.frames.flatMap Frame.slots

structure Execution.Readable (p : Program) (h : Heap) (x : Execution Variable) : Prop where
  programId : x.programId = p.id
  range : ∀ e ∈ x.fault, ¬ e.span.stop < e.span.start
  depth : x.frames.length ≤ p.env.limits.maxFrames
  nodes : ∀ f ∈ x.frames, f.node < p.nodeCount
  fits : ∀ v ∈ x.slots, h.FitsThroughout v

/-- The execution as it is read back. -/
def Execution.reread (x : Execution Variable) : Execution Variable :=
  { x.unmarked with fault := x.fault.map RuntimeError.reread, stop := false }

namespace Codec

theorem readsBack_status (status : Status) : ReadsBack (word (statusTag status)) readStatus True (· = status) := by
  refine (readsBack_word (statusTag status)).last ?_
  cases status <;> exact .pure rfl

theorem readsBack_runtimeError (e : RuntimeError) :
    ReadsBack (runtimeError e) readRuntimeError (¬ e.span.stop < e.span.start) (· = e.reread) := by
  refine .then_ (readsBack_long e.fault.code) (.then_ (readsBack_ulong e.span.start.toNat) ?_)
  refine .last (readsBack_ulong e.span.stop.toNat) ?_
  simp only [UInt32.ofNat_toNat]
  have range := ReadsBack.guard (c := e.span.stop < e.span.start) (.malformed .invertedRange)
    (.pure (A := (· = e.reread)) rfl)
  exact range.iff (and_iff_left trivial)

theorem frameFlags_le (f : Frame Variable) : frameFlags f ≤ 3 := by
  unfold frameFlags
  cases f.scope <;> cases f.call <;> decide

theorem readsBack_variables (h : Heap) (f : Frame Variable) (index : Int32) (same : index.toInt = f.index) :
    ReadsBack (word (frameFlags f) >> list (slot h) f.operands >> list (slot h) f.locals)
      (do
        let flags ← readWord
        if flags > 3 then throw (.unknownTag flags)
        else
          let operands ← readList readTree
          let locals ← readList readTree
          return ⟨f.node, f.state, index.toInt, operands, locals, flags % 2 = 1, flags ≥ 2, false⟩)
      (∀ v ∈ f.slots, h.FitsThroughout v) (Frame.Alike (h.Shows maxDepth) f.unmarked) := by
  have slots (vs : List Variable) := readsBack_list vs (readsBack_slotIn h maxDepth)
  refine .then_ (readsBack_word (frameFlags f)) ?_
  rw [if_neg (Nat.not_lt.2 (frameFlags_le f))]
  have split : ((∀ v ∈ f.operands, h.FitsThroughout v) ∧ (∀ v ∈ f.locals, h.FitsThroughout v) ∧ True) ↔
      ∀ v ∈ f.slots, h.FitsThroughout v := by
    rw [and_iff_left trivial, Frame.slots, List.forall_mem_append]
  refine ReadsBack.iff (.bind (slots f.operands) fun operands operands_shown => ?_) split
  refine .check (Q := True) (slots f.locals) fun locals locals_shown => .pure ?_
  have scope : f.scope = decide (frameFlags f % 2 = 1) := by
    unfold frameFlags
    cases f.scope <;> cases f.call <;> rfl
  have call : f.call = decide (frameFlags f ≥ 2) := by
    unfold frameFlags
    cases f.scope <;> cases f.call <;> rfl
  exact ⟨rfl, rfl, same.symm, operands_shown, locals_shown, scope, call, rfl⟩

theorem readsBack_frame (h : Heap) (nodeCount : Nat) (f : Frame Variable) :
    ReadsBack (frame h f) (readFrame nodeCount) 
      (f.node < nodeCount ∧ ∀ v ∈ f.slots, h.FitsThroughout v)
      (Frame.Alike (h.Shows maxDepth) f.unmarked) := by
  have indexed := (readsBack_integer f.index).bind (readsBack_variables h f)
  let rest (state : Nat) : Reader (Frame Tree) := do
    let index ← readLong
    let flags ← readWord
    if flags > 3 then throw (.unknownTag flags)
    else
      let operands ← readList readTree
      let locals ← readList readTree
      return ⟨f.node, state, index.toInt, operands, locals, flags % 2 = 1, flags ≥ 2, false⟩
  have position := ReadsBack.then_ (f := rest) (readsBack_word f.state) indexed
  refine .then_ (readsBack_ulong f.node) ?_
  have guarded := ReadsBack.guard (c := f.node ≥ nodeCount) (.malformed .unknownNode) position
  exact guarded.iff (by rw [Nat.not_le, true_and])

theorem readsBack_frames (h : Heap) (p : Program) (frames : List (Frame Variable)) :
    ReadsBack (list (frame h) frames) (readFrames p)
      (frames.length ≤ p.env.limits.maxFrames ∧
        ∀ f ∈ frames, f.node < p.nodeCount ∧ ∀ v ∈ f.slots, h.FitsThroughout v)
      (List.Forall₂ (fun f t => Frame.Alike (h.Shows maxDepth) f.unmarked t) frames) := by
  have entries := ReadsBack.guard (c := frames.length > p.env.limits.maxFrames) (.malformed .tooManyFrames)
    (readsBack_each frames (readsBack_frame h p.nodeCount))
  have counted := (readsBack_length frames.length).bind
    (f := fun count => if count > p.env.limits.maxFrames then throw (.malformed .tooManyFrames)
      else readEach (readFrame p.nodeCount) count) fun count hc => by
        rw [hc.1]
        exact entries
  exact counted.iff (by rw [true_and, Nat.not_lt])

end Codec

open Codec in
theorem Program.readsBack_execution (p : Program) (h : Heap) (x : Execution Variable) :
    ReadsBack (x.save h) p.readExecution (x.Readable p h) (x.reread.Alike (h.Shows maxDepth)) := by
  have parts : ReadsBack (x.save h) p.readExecution
      (¬ x.programId ≠ p.id ∧ (∀ v ∈ x.result, h.FitsThroughout v) ∧
        (∀ e ∈ x.fault, ¬ e.span.stop < e.span.start) ∧ (x.frames.length ≤ p.env.limits.maxFrames ∧
          ∀ f ∈ x.frames, f.node < p.nodeCount ∧ ∀ v ∈ f.slots, h.FitsThroughout v) ∧ True)
      (x.reread.Alike (h.Shows maxDepth)) := by
    refine .then_ (readsBack_string x.programId) (.guard _ ?_)
    refine .then_ (readsBack_word x.entry) (.then_ (readsBack_status x.status) ?_)
    refine .bind (readsBack_option x.result (readsBack_slotIn h maxDepth)) fun result result_shown => ?_
    refine .bind (readsBack_option x.fault readsBack_runtimeError) fun fault fault_shown => ?_
    refine .check (readsBack_frames h p x.frames) fun frames frames_shown => .pure ?_
    refine ⟨rfl, rfl, rfl, List.forall₂_map_left_iff.2 frames_shown, result_shown, ?_, rfl⟩
    unfold Execution.reread
    generalize x.fault = saved at fault_shown
    cases fault_shown with
    | none => rfl
    | some same => rw [same]; rfl
  refine parts.iff ⟨?_, fun readable => ?_⟩
  · rintro ⟨programId, result, range, ⟨depth, frames⟩, _⟩
    refine ⟨not_not.1 programId, range, depth, fun f hf => (frames f hf).1, fun v hv => ?_⟩
    rcases List.mem_append.1 hv with hv | hv
    · exact result v (Option.mem_toList.1 hv)
    · obtain ⟨f, hf, hv⟩ := List.mem_flatMap.1 hv
      exact (frames f hf).2 v hv
  · have result (v : Variable) (hv : v ∈ x.result) : h.FitsThroughout v :=
      readable.fits v (List.mem_append_left _ (Option.mem_toList.2 hv))
    have frames (f : Frame Variable) (hf : f ∈ x.frames) (v : Variable) (hv : v ∈ f.slots) :
        h.FitsThroughout v :=
      readable.fits v (List.mem_append_right _ (List.mem_flatMap.2 ⟨f, hf, hv⟩))
    exact ⟨not_not.2 readable.programId, result, readable.range,
      ⟨readable.depth, fun f hf => ⟨readable.nodes f hf, frames f hf⟩⟩, trivial⟩

namespace Heap

variable {x : Execution Tree} {f : Frame Tree} {h : Heap}

theorem mapThread_append {α β : Type} (f : α → Heap → β × Heap) (as bs : List α) (h : Heap) :
    mapThread f (as ++ bs) h =
      ((mapThread f as h).1 ++ (mapThread f bs (mapThread f as h).2).1,
        (mapThread f bs (mapThread f as h).2).2) := by
  induction as generalizing h with
  | nil => rfl
  | cons a as ih => simp only [List.cons_append, mapThread, ih]

theorem forall₂_mapThread {α β : Type} {f : α → Heap → β × Heap} {P : α → β → Prop}
    (each : ∀ a h, P a (f a h).1) (as : List α) (h : Heap) : as.Forall₂ P (mapThread f as h).1 := by
  induction as generalizing h with
  | nil => exact .nil
  | cons a as ih => exact .cons (each a h) (ih _)

theorem slots_plantExecution (x : Execution Tree) (h : Heap) :
    mapThread plant x.slots h = ((plantExecution x h).1.slots, (plantExecution x h).2) := by
  have frames (fs : List (Frame Tree)) (h : Heap) : mapThread plant (fs.flatMap Frame.slots) h =
      ((mapThread plantFrame fs h).1.flatMap Frame.slots, (mapThread plantFrame fs h).2) := by
    induction fs generalizing h with
    | nil => rfl
    | cons f fs ih =>
      simp only [List.flatMap_cons, mapThread, Frame.slots, mapThread_append, ih, plantFrame]
  unfold Execution.slots plantExecution
  rw [mapThread_append, frames]
  cases x.result <;> rfl

theorem alike_plantExecution (x : Execution Tree) (h : Heap) :
    x.Alike (fun _ _ => True) (plantExecution x h).1 where
  programId := rfl
  entry := rfl
  status := rfl
  frames := by
    have slots := forall₂_mapThread (f := plant) (P := fun _ _ => True) fun _ _ => trivial
    exact forall₂_mapThread (fun f h => ⟨rfl, rfl, rfl, slots .., slots .., rfl, rfl, rfl⟩) ..
  result := by
    unfold plantExecution
    cases x.result with
    | none => exact .none
    | some t => exact .some trivial
  fault := rfl
  stop := rfl

end Heap

section

variable {μ ν τ : Type} {A B : μ → ν → Prop} {C : ν → τ → Prop} {D : μ → τ → Prop}

theorem Frame.Alike.comp {f : Frame μ} {g : Frame ν} {e : Frame τ} (h : f.Alike A g) (h' : g.Alike C e)
    (both : ∀ a b c, A a b → C b c → D a c) : f.Alike D e where
  node := h.node.trans h'.node
  state := h.state.trans h'.state
  index := h.index.trans h'.index
  operands := forall₂_comp h.operands h'.operands both
  locals := forall₂_comp h.locals h'.locals both
  scope := h.scope.trans h'.scope
  call := h.call.trans h'.call
  live := h.live.trans h'.live

theorem Frame.Alike.slots {f : Frame μ} {g : Frame ν} (h : f.Alike A g) :
    f.slots.Forall₂ A g.slots :=
  List.rel_append h.operands h.locals

theorem Frame.Alike.of_slots {f : Frame μ} {g : Frame ν} (h : f.Alike A g)
    (slots : f.slots.Forall₂ B g.slots) : f.Alike B g := by
  obtain ⟨operands, locals⟩ := forall₂_append_split h.operands.length_eq slots
  exact { h with operands := operands, locals := locals }

namespace Execution.Alike

variable {x : Execution μ} {y : Execution ν} {z : Execution τ}

theorem comp (h : x.Alike A y) (h' : y.Alike C z) (both : ∀ a b c, A a b → C b c → D a c) :
    x.Alike D z where
  programId := h.programId.trans h'.programId
  entry := h.entry.trans h'.entry
  status := h.status.trans h'.status
  frames := forall₂_comp h.frames h'.frames fun _ _ _ first second => first.comp second both
  result := by
    have first := h.result
    have second := h'.result
    generalize x.result = a at first
    generalize y.result = b at first second
    generalize z.result = c at second
    cases first with
    | none =>
      cases second
      exact .none
    | some first =>
      cases second with
      | some second => exact .some (both _ _ _ first second)
  fault := h.fault.trans h'.fault
  stop := h.stop.trans h'.stop

theorem slots (h : x.Alike A y) : x.slots.Forall₂ A y.slots := by
  refine List.rel_append ?_ (List.rel_flatMap h.frames fun _ _ frame => frame.slots)
  have result := h.result
  generalize x.result = a at result
  generalize y.result = b at result
  cases result with
  | none => exact .nil
  | some alike => exact .cons alike .nil

theorem of_slots (h : x.Alike A y) (slots : x.slots.Forall₂ B y.slots) : x.Alike B y := by
  have frames {fs : List (Frame μ)} {gs : List (Frame ν)} (same : fs.Forall₂ (Frame.Alike A) gs)
      (slots : (fs.flatMap Frame.slots).Forall₂ B (gs.flatMap Frame.slots)) :
      fs.Forall₂ (Frame.Alike B) gs := by
    induction same with
    | nil => exact .nil
    | cons first _ ih =>
      obtain ⟨own, rest⟩ := forall₂_append_split first.slots.length_eq slots
      exact .cons (first.of_slots own) (ih rest)
  have result := h.result
  unfold Execution.slots at slots
  generalize hx : x.result = a at result slots
  generalize hy : y.result = b at result slots
  cases result with
  | none => exact { h with frames := frames h.frames slots, result := by rw [hx, hy]; exact .none }
  | some _ =>
    cases slots with
    | cons first rest =>
      exact { h with frames := frames h.frames rest, result := by rw [hx, hy]; exact .some first }

section

variable {x : Execution Variable} {t : Execution Tree} {h : Heap} {depth : Nat}

theorem planted (alike : x.Alike (h.Shows depth) t) (k : Heap) :
    Heap.Planted k depth t.slots (k.plantExecution t).2 (k.plantExecution t).1.slots := by
  have nested : ∀ u ∈ t.slots, u.Nested depth := fun u hu => by
    obtain ⟨_, _, shows⟩ := forall₂_exists_left alike.slots hu
    exact shows.nested
  have planted := Heap.planted_mapThread (fun u hu h => Heap.planted_nested (nested u hu) h) k
  rwa [Heap.slots_plantExecution] at planted

theorem plant {D : Variable → Variable → Prop} (alike : x.Alike (h.Shows depth) t) (k : Heap)
    (both : ∀ v w u, h.Shows depth v u → (k.plantExecution t).2.Shows depth w u → D v w) :
    x.Alike D (k.plantExecution t).1 := by
  have positions := alike.comp (Heap.alike_plantExecution t k) (D := fun _ _ => True) fun _ _ _ _ _ => trivial
  exact positions.of_slots (forall₂_comp_flip alike.slots (alike.planted k).shows both)

theorem frames_marked {A : Variable → Variable → Prop} {y : Execution Variable} (alike : x.reread.Alike A y)
    (live : ∀ f ∈ x.frames, f.live = true) : x.frames.Forall₂ (Frame.Alike A) (y.frames.map Frame.marked) := by
  refine List.forall₂_map_right_iff.2 (forall₂_imp_mem (List.forall₂_map_left_iff.1 alike.frames) ?_)
  exact fun f g hf _ same => { same with live := live f hf }

end

end Execution.Alike

end

section

variable {p : Program} {x : Execution Variable} {h : Heap} {bytes : List UInt8}

theorem Execution.slots_reread (x : Execution Variable) : x.reread.slots = x.slots := by
  unfold Execution.slots Execution.reread Execution.unmarked
  rw [List.flatMap_map]
  rfl

theorem Execution.Readable.load (readable : x.Readable p h) (saved : (x.save h).toExcept = .ok bytes)
    (k : Heap) : ∃ y k', p.load bytes k = .ok (y, k') ∧ x.reread.Alike (h.Twins k' maxDepth) y ∧
      (∀ r : Nat, r ∈ y.slots.flatMap (k'.refs maxDepth) → k.size ≤ r ∧ r < k'.size) ∧
      (y.slots.flatMap (k'.refs maxDepth)).Nodup := by
  obtain ⟨noError, rfl⟩ := Codec.ok_of_toExcept saved
  obtain ⟨t, alike, run⟩ := (p.readsBack_execution h x).accepts noError readable []
  rw [List.append_nil] at run
  have planted := alike.planted k
  have loaded : p.load (x.save h).bytes k = .ok (Heap.plantExecution t k) := by
    unfold Program.load
    rw [run]
    rfl
  exact ⟨_, _, loaded, alike.plant k fun _ _ _ => Heap.twins_of_shows, planted.fresh, planted.nodup⟩

theorem Execution.readable_of_load (saved : (x.save h).toExcept = .ok bytes) {k : Heap}
    {y : Execution Variable × Heap} (loaded : p.load bytes k = .ok y) : x.Readable p h := by
  obtain ⟨noError, rfl⟩ := Codec.ok_of_toExcept saved
  by_contra unreadable
  obtain ⟨e, run⟩ := (p.readsBack_execution h x).refuses noError unreadable []
  rw [List.append_nil] at run
  unfold Program.load at loaded
  rw [run] at loaded
  cases loaded

end

end Tickwise
