import Tickwise.Proofs.Machine.Plain
set_option autoImplicit false

/-!
# Frames around an instruction

Executing an instruction changes nothing in the frames around it but their variables, and every step
that it takes is one off the budget.
-/
namespace Tickwise

def Frame.bare (f : Frame Variable) : Frame Variable := { f with locals := [] }

/-- What of a frame stays the same as long as it exists. -/
def Frame.kind (f : Frame Variable) : NodeId × Bool × Bool := (f.node, f.call, f.live)

@[simp] theorem Frame.kind_bare (f : Frame Variable) : f.bare.kind = f.kind := rfl

theorem Instr.move_bare (p : Program) (i : Instr) (f : Frame Variable) :
    i.move p f.bare = i.move p f := rfl

theorem Instr.move_congr {p : Program} {i : Instr} {f g : Frame Variable} (h : f.bare = g.bare) :
    i.move p f = i.move p g := by
  rw [← i.move_bare p f, h, i.move_bare]

theorem Frame.map_bare_setVar (id : VarId) (v : Variable) (fs : List (Frame Variable)) :
    (Frame.setVar id v fs).map Frame.bare = fs.map Frame.bare := by
  induction fs with
  | nil => rfl
  | cons f fs ih =>
    unfold Frame.setVar
    split
    · rfl
    · split
      · rfl
      · simp [ih]

theorem Frame.map_bare_declareVar (v : Variable) (fs : List (Frame Variable)) :
    (Frame.declareVar v fs).map Frame.bare = fs.map Frame.bare := by
  induction fs with
  | nil => rfl
  | cons f fs ih =>
    unfold Frame.declareVar
    split
    · rfl
    · simp [ih]

theorem Frame.eq_or_mem_of_replaceFirst {p : Variable → Bool} {v w : Variable} {vs : List Variable}
    (h : w ∈ Frame.replaceFirst p v vs) : w = v ∨ w ∈ vs := by
  induction vs with
  | nil => exact .inr h
  | cons u us ih =>
    unfold Frame.replaceFirst at h
    split at h
    · exact (List.mem_cons.1 h).imp_right (List.mem_cons_of_mem _)
    · rcases List.mem_cons.1 h with rfl | h
      · exact .inr List.mem_cons_self
      · exact (ih h).imp_right (List.mem_cons_of_mem _)

/-- A frame after `v` was stored in it: nothing else is new there. -/
structure Frame.Stores (v : Variable) (f g : Frame Variable) : Prop where
  operands : g.operands = f.operands
  locals : ∀ w ∈ g.locals, w = v ∨ w ∈ f.locals

namespace Frame.Stores

variable {id : VarId} {v : Variable} {f : Frame Variable} {fs : List (Frame Variable)}

theorem refl (v : Variable) (f : Frame Variable) : f.Stores v f := ⟨rfl, fun _ hw => .inr hw⟩

theorem setLocal (id : VarId) (v : Variable) (f : Frame Variable) : f.Stores v (f.setLocal id v) where
  operands := rfl
  locals _ hw := (eq_or_mem_of_replaceFirst (List.mem_reverse.1 hw)).imp_right List.mem_reverse.1

theorem declare (v : Variable) (f : Frame Variable) : f.Stores v (f.declare v) where
  operands := rfl
  locals w hw := by
    unfold Frame.declare at hw
    dsimp only at hw
    split at hw
    · exact eq_or_mem_of_replaceFirst hw
    · exact (List.mem_append.1 hw).symm.imp_left List.mem_singleton.1

theorem of_mem_setVar (hf : f ∈ Frame.setVar id v fs) : ∃ g ∈ fs, g.Stores v f := by
  induction fs with
  | nil => cases hf
  | cons g fs ih =>
    unfold Frame.setVar at hf
    split at hf
    · rcases List.mem_cons.1 hf with rfl | hf
      · exact ⟨g, List.mem_cons_self, setLocal id v g⟩
      · exact ⟨f, List.mem_cons_of_mem _ hf, refl v f⟩
    · split at hf
      · exact ⟨f, hf, refl v f⟩
      · rcases List.mem_cons.1 hf with rfl | hf
        · exact ⟨f, List.mem_cons_self, refl v f⟩
        · obtain ⟨k, hk, stores⟩ := ih hf
          exact ⟨k, List.mem_cons_of_mem _ hk, stores⟩

theorem of_mem_declareVar (hf : f ∈ Frame.declareVar v fs) : ∃ g ∈ fs, g.Stores v f := by
  induction fs with
  | nil => cases hf
  | cons g fs ih =>
    unfold Frame.declareVar at hf
    split at hf
    · rcases List.mem_cons.1 hf with rfl | hf
      · exact ⟨g, List.mem_cons_self, declare v g⟩
      · exact ⟨f, List.mem_cons_of_mem _ hf, refl v f⟩
    · rcases List.mem_cons.1 hf with rfl | hf
      · exact ⟨f, List.mem_cons_self, refl v f⟩
      · obtain ⟨k, hk, stores⟩ := ih hf
        exact ⟨k, List.mem_cons_of_mem _ hk, stores⟩

end Frame.Stores

namespace Machine

/-- The frames and the storage of `m` with everything else of `n`. -/
def under (m n : Machine) : Machine :=
  { n with frames := m.frames, deeper := m.deeper, heap := m.heap }

@[simp] theorem heap_modifyFrame (m : Machine) (g : Frame Variable → Frame Variable) :
    (m.modifyFrame g).heap = m.heap := by
  obtain ⟨_ | _, _⟩ := m <;> rfl

@[simp] theorem deeper_modifyFrame (m : Machine) (g : Frame Variable → Frame Variable) :
    (m.modifyFrame g).deeper = m.deeper := by
  obtain ⟨_ | _, _⟩ := m <;> rfl

theorem own_modifyFrame {m : Machine} (hm : m.frames ≠ []) (g : Frame Variable → Frame Variable) :
    (m.modifyFrame g).own = g m.own := by
  obtain ⟨_ | _, _⟩ := m
  · exact absurd rfl hm
  · rfl

theorem modifyFrame_under (m n : Machine) (g : Frame Variable → Frame Variable) :
    (m.under n).modifyFrame g = (m.modifyFrame g).under n := by
  obtain ⟨_ | ⟨f, fs⟩, _⟩ := m <;> rfl

theorem enter?_of_nil {m : Machine} (none : m.deeper = []) (node : NodeId) :
    m.enter? node = some { m with frames := Frame.start node :: m.frames } := by
  unfold enter?
  rw [none]

theorem enter?_of_cons {m : Machine} {node : NodeId} {f : Frame Variable} {rest : List (Frame Variable)}
    (left : m.deeper = f :: rest) (own : f.node = node) (live : f.live = true) :
    m.enter? node = some { m with frames := f :: m.frames, deeper := rest } := by
  unfold enter?
  rw [left]
  dsimp only
  rw [if_pos own, if_pos live]

/-- Entering the frame of an instruction starts a new one or goes on with the one left behind. -/
theorem enter?_cases {m inside : Machine} {node : NodeId} (h : m.enter? node = some inside) :
    inside = { m with frames := Frame.start node :: m.frames, deeper := [] } ∨
      ∃ f rest, m.deeper = f :: rest ∧ f.node = node ∧ f.live = true ∧
        inside = { m with frames := f :: m.frames, deeper := rest } := by
  unfold enter? at h
  rcases hd : m.deeper with _ | ⟨f, rest⟩ <;> rw [hd] at h
  · cases h
    exact .inl rfl
  · by_cases hn : f.node = node <;> by_cases hl : f.live <;> simp [hn, hl] at h
    · exact .inr ⟨f, rest, rfl, hn, hl, h.symm⟩
    · exact .inl h.symm
    · exact .inl h.symm

theorem enter?_frames {m inside : Machine} {node : NodeId} (h : m.enter? node = some inside) :
    ∃ f deeper, f.node = node ∧ f.live = true ∧
      inside = { m with frames := f :: m.frames, deeper := deeper } := by
  rcases enter?_cases h with rfl | ⟨f, rest, _, hn, hl, rfl⟩
  · exact ⟨Frame.start node, [], rfl, rfl, rfl⟩
  · exact ⟨f, rest, hn, hl, rfl⟩

theorem placeCallee?_under (m n : Machine) (node : NodeId) (params : List Variable) :
    (m.under n).placeCallee? node params = (m.placeCallee? node params).map (·.under n) := by
  unfold placeCallee? under
  rcases m.deeper with _ | ⟨f, fs⟩
  · rfl
  · by_cases hn : f.node = node <;> by_cases hl : f.live <;> simp [hn, hl]

theorem eq_of_placeCallee?_eq_some {m n : Machine} {node : NodeId} {params : List Variable}
    (h : m.placeCallee? node params = some n) : n = { m with deeper := n.deeper } := by
  unfold placeCallee? at h
  rcases hd : m.deeper with _ | ⟨f, fs⟩ <;> rw [hd] at h
  · cases h
    rfl
  · by_cases hn : f.node = node <;> by_cases hl : f.live <;> simp [hn, hl] at h <;> subst h <;> rfl

theorem map_bare_frames_setVar (m : Machine) (id : VarId) (v : Variable) :
    (m.setVar id v).frames.map Frame.bare = m.frames.map Frame.bare := by
  have h := Frame.map_bare_setVar id v m.allFrames
  simp only [setVar, List.map_drop, h]
  simp [allFrames]

theorem map_bare_deeper_setVar (m : Machine) (id : VarId) (v : Variable) :
    (m.setVar id v).deeper.map Frame.bare = m.deeper.map Frame.bare := by
  have h := Frame.map_bare_setVar id v m.allFrames
  simp only [setVar, List.map_reverse, List.map_take, h]
  simp [allFrames]

theorem map_bare_frames_declare (m : Machine) (v : Variable) :
    (m.declare v).frames.map Frame.bare = m.frames.map Frame.bare := by
  rcases hf : m.frames with _ | ⟨f, fs⟩ <;> simp [declare, hf, Frame.map_bare_declareVar]

/-- All frames around an instruction are as before, but for their variables, and what it took of steps
is off the budget. -/
structure Around (m n : Machine) : Prop where
  frames : n.frames.map Frame.bare = m.frames.map Frame.bare
  stop : n.stop = m.stop
  steps : n.taken + n.budget = m.taken + m.budget
  taken : m.taken ≤ n.taken

/-- The same for the frames around the innermost one, which may be at another position now. -/
structure Inside (m n : Machine) : Prop where
  own : n.frames.head?.map Frame.kind = m.frames.head?.map Frame.kind
  outer : n.frames.tail.map Frame.bare = m.frames.tail.map Frame.bare
  stop : n.stop = m.stop
  steps : n.taken + n.budget = m.taken + m.budget
  taken : m.taken ≤ n.taken

theorem Around.own {m n : Machine} (h : m.Around n) : n.own.bare = m.own.bare := by
  have hf := h.frames
  unfold Machine.own
  rcases hm : m.frames with _ | ⟨f, fs⟩ <;> rcases hn : n.frames with _ | ⟨g, gs⟩ <;> simp_all

theorem Around.frames_ne_nil {m n : Machine} (h : m.Around n) (hm : m.frames ≠ []) :
    n.frames ≠ [] := by
  intro hn
  have frames := h.frames
  rw [hn] at frames
  exact hm (List.map_eq_nil_iff.1 frames.symm)

theorem Around.inside {m n : Machine} (h : m.Around n) : m.Inside n := by
  refine ⟨?_, ?_, h.stop, h.steps, h.taken⟩
  · have hf := congrArg (fun fs => fs.head?.map Frame.kind) h.frames
    simpa [Function.comp_def] using hf
  · simpa using congrArg List.tail h.frames

namespace Inside

theorem refl (m : Machine) : m.Inside m := ⟨rfl, rfl, rfl, rfl, Nat.le_refl _⟩

theorem trans {m n o : Machine} (h : m.Inside n) (h' : n.Inside o) : m.Inside o :=
  ⟨h'.own.trans h.own, h'.outer.trans h.outer, h'.stop.trans h.stop, h'.steps.trans h.steps,
    Nat.le_trans h.taken h'.taken⟩

theorem own_kind {m n : Machine} (h : m.Inside n) (hm : m.frames ≠ []) :
    n.frames ≠ [] ∧ n.own.kind = m.own.kind := by
  have own := h.own
  unfold Machine.own
  rcases hf : m.frames with _ | ⟨f, fs⟩
  · exact absurd hf hm
  · rcases hn : n.frames with _ | ⟨g, gs⟩
    · simp [hf, hn] at own
    · exact ⟨List.cons_ne_nil _ _, by simpa [hf, hn] using own⟩

theorem budget_le {m n : Machine} (h : m.Inside n) : n.budget ≤ m.budget := by
  have := h.steps
  have := h.taken
  omega

theorem modifyFrame (m : Machine) {g : Frame Variable → Frame Variable}
    (same : ∀ f, (g f).kind = f.kind) : m.Inside (m.modifyFrame g) := by
  unfold Machine.modifyFrame
  rcases hf : m.frames with _ | ⟨f, fs⟩
  · exact refl m
  · refine ⟨?_, ?_, rfl, rfl, Nat.le_refl _⟩
    · simp [hf, same]
    · simp [hf]

end Inside
end Machine

namespace Exec

variable {α β : Type}

theorem settle_of_running {c : Exec α} {m : Machine} (h : (c m).1 ≠ .error .suspended) :
    settle c m = ((c m).1, { (c m).2 with deeper := [] }) := by
  unfold settle
  split
  case h_1 hc => exact absurd (congrArg Prod.fst hc) h
  case h_2 hc => rw [hc]

theorem leaveFrame_of_running {o : Except Interrupt α} (h : o ≠ .error .suspended) (m : Machine) :
    leaveFrame (o, m) = (o, m.leave) := by
  unfold leaveFrame
  split
  case h_1 he => exact absurd (congrArg Prod.fst he) h
  case h_2 he => cases he; rfl

/-- What a computation does depends on the frames and the storage only, and is done to them only. -/
def IsLocal (c : Exec α) : Prop := ∀ m n : Machine, c (m.under n) = ((c m).1, (c m).2.under n)

theorem IsLocal.seq {c : Exec α} {f : α → Exec β} (hc : IsLocal c)
    (hf : ∀ a m m', c m = (.ok a, m') → IsLocal (f a)) : IsLocal (c >>= f) := by
  intro m n
  rw [bind_apply, bind_apply, hc m n]
  rcases h : c m with ⟨_ | a, m'⟩
  · rfl
  · exact hf a m m' h m' n

theorem IsLocal.bind {c : Exec α} {f : α → Exec β} (hc : IsLocal c) (hf : ∀ a, IsLocal (f a)) :
    IsLocal (c >>= f) :=
  hc.seq fun a _ _ _ => hf a

theorem IsLocal.under_self {c : Exec α} (h : IsLocal c) (m : Machine) : (c m).2.under m = (c m).2 :=
  congrArg Prod.snd (h m m).symm

theorem ne_suspended_seq {c : Exec α} {f : α → Exec β} (hc : ∀ m, (c m).1 ≠ .error .suspended)
    (hf : ∀ a m m', c m = (.ok a, m') → ∀ n, (f a n).1 ≠ .error .suspended) (m : Machine) :
    ((c >>= f) m).1 ≠ .error .suspended := by
  have h := hc m
  rw [bind_apply]
  rcases hr : c m with ⟨_ | a, m'⟩
  · rw [hr] at h
    exact fun he => h (congrArg Except.error (Except.error.inj he))
  · exact hf a m m' hr m'

theorem ne_suspended_bind {c : Exec α} {f : α → Exec β} (hc : ∀ m, (c m).1 ≠ .error .suspended)
    (hf : ∀ a m, (f a m).1 ≠ .error .suspended) (m : Machine) :
    ((c >>= f) m).1 ≠ .error .suspended :=
  ne_suspended_seq hc (fun a _ _ _ => hf a) m

/-- What each computation keeps of the machine both keep, one after the other. -/
theorem keep_seq {K : Machine → Machine → Prop} (trans : ∀ {m n o}, K m n → K n o → K m o) {c : Exec α}
    {f : α → Exec β} (hc : ∀ m, K m (c m).2) (hf : ∀ a m m', c m = (.ok a, m') → ∀ n, K n (f a n).2) (m : Machine) :
    K m ((c >>= f) m).2 := by
  have h := hc m
  rw [bind_apply]
  rcases hr : c m with ⟨_ | a, m'⟩
  · rw [hr] at h
    exact h
  · rw [hr] at h
    exact trans h (hf a m m' hr m')

namespace Plain

theorem isLocal {c : Exec α} (h : Plain (fun _ => True) c) : IsLocal c := by
  induction h with
  | seq _ _ first second => exact first.seq second
  | setFrame g => exact fun m n => congrArg (Prod.mk _) (m.modifyFrame_under n g)
  | _ => exact fun _ _ => rfl

theorem ne_suspended {c : Exec α} (h : Plain (fun _ => True) c) (m : Machine) : (c m).1 ≠ .error .suspended := by
  induction h generalizing m with
  | throw running => exact fun he => running (Except.error.inj he)
  | seq _ _ first second => exact ne_suspended_seq first second m
  | _ => nofun

theorem inside {c : Exec α} (h : Plain (fun _ => True) c) (m : Machine) : m.Inside (c m).2 := by
  induction h generalizing m with
  | seq _ _ first second => exact keep_seq (K := Machine.Inside) .trans first second m
  | setFrame g same => exact .modifyFrame m fun f => by simp [Frame.kind, same f]
  | setVar id v _ => exact Machine.Around.inside ⟨m.map_bare_frames_setVar id v, rfl, rfl, Nat.le_refl _⟩
  | declareVar v => exact Machine.Around.inside ⟨m.map_bare_frames_declare v, rfl, rfl, Nat.le_refl _⟩
  | _ => exact ⟨rfl, rfl, rfl, rfl, Nat.le_refl _⟩

theorem map_bare_deeper {c : Exec α} (h : Plain (fun _ => True) c) (m : Machine) :
    (c m).2.deeper.map Frame.bare = m.deeper.map Frame.bare := by
  induction h generalizing m with
  | seq _ _ first second =>
    exact keep_seq (K := fun m n => n.deeper.map Frame.bare = m.deeper.map Frame.bare)
      (fun h h' => h'.trans h) first second m
  | setFrame g => obtain ⟨_ | ⟨f, fs⟩, _⟩ := m <;> rfl
  | setVar id v _ => exact m.map_bare_deeper_setVar id v
  | _ => rfl

theorem deeper_eq_nil {c : Exec α} (h : Plain (fun _ => True) c) {m : Machine} (hm : m.deeper = []) :
    (c m).2.deeper = [] := by
  have hd := h.map_bare_deeper m
  rw [hm] at hd
  exact List.map_eq_nil_iff.1 hd

end Plain

theorem isLocal_placeCallee (span : Span) (node : NodeId) (params : List Variable) :
    IsLocal (placeCallee span node params) := by
  intro m n
  simp only [placeCallee, m.placeCallee?_under n]
  cases m.placeCallee? node params <;> rfl

theorem isLocal_enterCallee (span : Span) (f : Function) (room : Nat) :
    IsLocal (enterCallee span f room) := by
  refine Plain.operands.isLocal.bind fun _ => (Plain.setOperands []).isLocal.bind fun _ =>
    (Plain.checkCrash trivial _ _).isLocal.bind fun params => ?_
  split
  · exact (Plain.faultAt trivial _).isLocal
  · exact IsLocal.bind (isLocal_placeCallee _ _ _) fun _ => (Plain.setPosition 2 0).isLocal

theorem ne_suspended_placeCallee (span : Span) (node : NodeId) (params : List Variable)
    (m : Machine) : (placeCallee span node params m).1 ≠ .error .suspended := by
  unfold placeCallee
  split <;> nofun

theorem ne_suspended_enterCallee (span : Span) (f : Function) (room : Nat) (m : Machine) :
    (enterCallee span f room m).1 ≠ .error .suspended := by
  refine ne_suspended_bind Plain.operands.ne_suspended (fun _ => ?_) m
  refine ne_suspended_bind (Plain.setOperands []).ne_suspended fun _ => ?_
  refine ne_suspended_bind (Plain.checkCrash trivial _ _).ne_suspended fun params => ?_
  split
  · exact (Plain.faultAt trivial _).ne_suspended
  · exact ne_suspended_bind (ne_suspended_placeCallee _ _ _) fun _ => (Plain.setPosition 2 0).ne_suspended

end Exec
end Tickwise
