import Tickwise.Proofs.Machine.Adequacy
set_option autoImplicit false

/-!
# Splitting the budget

An execution that ends with its budget used up goes on as it would have with more, and no other
execution depends on the budget.
-/
namespace Tickwise

open Exec

namespace Machine

def more (m : Machine) (k t : Nat) : Machine :=
  { m with budget := m.budget + k, taken := m.taken + t }

@[simp] theorem own_more (m : Machine) (k t : Nat) : (m.more k t).own = m.own := rfl

theorem more_more (m : Machine) (k t k' t' : Nat) :
    (m.more k t).more k' t' = m.more (k + k') (t + t') := by
  simp [more, Nat.add_assoc]

@[simp] theorem more_zero (m : Machine) : m.more 0 0 = m := rfl

theorem modifyFrame_more (m : Machine) (g : Frame Variable → Frame Variable) (k t : Nat) :
    (m.more k t).modifyFrame g = (m.modifyFrame g).more k t := by
  obtain ⟨_ | _, _⟩ := m <;> rfl

theorem enter?_more (m : Machine) (node : NodeId) (k t : Nat) :
    (m.more k t).enter? node = (m.enter? node).map (·.more k t) := by
  unfold enter? more
  rcases m.deeper with _ | ⟨f, rest⟩
  · rfl
  · by_cases hn : f.node = node <;> by_cases hl : f.live <;> simp [hn, hl]

/-- The frame that an instruction left behind is entered again. -/
theorem enter?_suspend {m : Machine} {node : NodeId} (hm : m.frames ≠ []) (hn : m.own.node = node)
    (live : m.own.live = true) : m.suspend.enter? node = some m := by
  obtain ⟨_ | ⟨f, fs⟩, _⟩ := m
  · exact absurd rfl hm
  · exact enter?_of_cons rfl hn live

end Machine

namespace Exec

variable {α β : Type}

/-- What a computation does is independent of the budget. -/
def Unbudgeted (c : Exec α) : Prop :=
  ∀ (m : Machine) (k t : Nat), c (m.more k t) = ((c m).1, (c m).2.more k t)

theorem IsLocal.unbudgeted {c : Exec α} (h : IsLocal c) : Unbudgeted c := by
  intro m k t
  have same : (c m).2.under (m.more k t) = (c m).2.more k t := by
    calc (c m).2.under (m.more k t) = ((c m).2.under m).more k t := rfl
      _ = (c m).2.more k t := by rw [h.under_self]
  rw [← same]
  exact h m (m.more k t)

theorem Unbudgeted.bind {c : Exec α} {f : α → Exec β} (hc : Unbudgeted c)
    (hf : ∀ a, Unbudgeted (f a)) : Unbudgeted (c >>= f) := by
  intro m k t
  rw [bind_apply, bind_apply, hc m k t]
  rcases c m with ⟨_ | a, m'⟩
  · rfl
  · exact hf a m' k t

theorem unbudgeted_answered (span : Span) (ret : Ty) (outcome : NativeOutcome) :
    Unbudgeted (answered span ret outcome) := by
  cases outcome with
  | done v => exact (Plain.convert trivial v ret).isLocal.unbudgeted
  | suspend => exact fun m k t => congrArg (Prod.mk _) (m.modifyFrame_more _ k t)
  | fault _ | crashed _ => exact fun _ _ _ => rfl

theorem unbudgeted_callNative (span : Span) (id : NativeId) (f : NativeFn) (ret : Ty) :
    Unbudgeted (callNative span id f ret) := by
  intro m k t
  have record (phase : CallPhase) (r : NativeReply) :
      (m.more k t).record id phase r = (m.record id phase r).more k t := by
    unfold Machine.record
    rw [m.modifyFrame_more]
    rfl
  rw [callNative_apply, callNative_apply]
  dsimp only
  rw [record]
  change (if callPhase m.own.state m.stop = .cancel then _ else _ : Exec Variable) _ = _
  split
  · rfl
  · exact unbudgeted_answered _ _ _ _ k t

end Exec

/-- How a computation that leads from `m` to `r` depends on the budget. If it is suspended, either its
budget is used up and with more it leads to what it leads to from there, or a native asked for the
suspension. -/
structure Splits {α : Type} (R : Machine → Result α → Prop) (m : Machine) (r : Result α) : Prop where
  ends : r.1 ≠ .error .suspended → ∀ k t, R (m.more k t) (r.1, r.2.more k t)
  pauses : r.1 = .error .suspended →
    (r.2.budget = 0 ∧ (∀ t, R (m.more 0 t) (r.1, r.2.more 0 t)) ∧
      ∀ k t r', R (r.2.more k t) r' → R (m.more k t) r') ∨
    ∀ k t, R (m.more k t) (r.1, r.2.more k t)

namespace Splits

variable {α : Type} {R : Machine → Result α → Prop} {m : Machine} {r : Result α}

theorem of_all (h : ∀ k t, R (m.more k t) (r.1, r.2.more k t)) : Splits R m r :=
  ⟨fun _ => h, fun _ => .inr h⟩

theorem later (h : Splits R m r) (t : Nat) : R (m.more 0 t) (r.1, r.2.more 0 t) := by
  by_cases hr : r.1 = .error .suspended
  · rcases h.pauses hr with ⟨_, later, _⟩ | all
    · exact later t
    · exact all 0 t
  · exact h.ends hr 0 t

end Splits

variable {run : Instr → Machine → Result Variable → Prop} {p : Program} {room : Nat} {i : Instr}
  {m : Machine}

theorem Turn.of_eq {r r' : Result (Option Variable)} (h : Turn run p room i m r) (same : r = r') :
    Turn run p room i m r' :=
  same ▸ h

theorem Turn.splits {r : Result (Option Variable)} (around : ∀ c m r, run c m r → m.Around r.2)
    (splits : ∀ c m r, run c m r → Splits (run c) m r) (h : Turn run p room i m r) :
    Splits (Turn run p room i) m r := by
  have plain := i.move_isPlain p m.own
  cases h with
  | @child c follow o m₁ move inner =>
    rw [move] at plain
    have same := splits _ _ _ inner
    by_cases ho : o = .error .suspended
    · subst ho
      rw [plain.1]
      -- The frame that stays behind makes the same move again.
      have again : i.move p m₁.own = .run c follow := (Instr.move_congr (around _ _ _ inner).own).trans move
      have paused {k t k' t' : Nat} (h : run c (m.more k t) (.error .suspended, m₁.more k' t')) :
          Turn run p room i (m.more k t) (.error .suspended, m₁.more k' t') := by
        have turn : Turn run p room i (m.more k t) (follow (.error .suspended) (m₁.more k' t')) :=
          .child move h
        rwa [plain.1] at turn
      refine ⟨fun h => absurd rfl h, fun _ => ?_⟩
      rcases same.pauses rfl with ⟨budget, later, resume⟩ | all
      · refine .inl ⟨budget, fun t => paused (later t), fun k t r' h' => ?_⟩
        cases h' with
        | child move' inner' =>
          cases again.symm.trans move'
          exact .child move (resume k t _ inner')
        | _ => simp_all
      · exact .inr fun k t => paused (all k t)
    · refine .of_all fun k t => ?_
      have turn : Turn run p room i (m.more k t) (follow o (m₁.more k t)) :=
        .child move (same.ends ho k t)
      exact turn.of_eq ((plain.2 o ho fun _ _ _ _ => trivial).isLocal.unbudgeted m₁ k t)
  | @pass span state index move =>
    have turn (k t : Nat) : Turn run p room i (m.more k t) _ := .pass move
    simp only [pass_apply] at turn ⊢
    by_cases hs : m.stop = true
    · rw [if_pos hs]
      exact .of_all fun k t => (turn k t).of_eq (if_pos hs)
    · rw [if_neg hs]
      by_cases hb : m.budget = 0
      · rw [if_pos hb]
        have still (t : Nat) : Turn run p room i (m.more 0 t) (.error .suspended, m.more 0 t) :=
          (turn 0 t).of_eq ((if_neg hs).trans (if_pos hb))
        exact ⟨fun h => absurd rfl h, fun _ => .inl ⟨hb, still, fun _ _ _ h => h⟩⟩
      · rw [if_neg hb]
        refine .of_all fun k t => (turn k t).of_eq ?_
        have hb' : ¬ (m.more k t).budget = 0 := fun h => hb (Nat.eq_zero_of_add_eq_zero_right h)
        refine ((if_neg hs).trans (if_neg hb')).trans (congrArg (Prod.mk _) ?_)
        rw [← Machine.modifyFrame_more]
        congr 1
        unfold Machine.more
        congr 1
        · exact Nat.sub_add_comm (Nat.pos_of_ne_zero hb)
        · exact Nat.add_right_comm ..
  | @enter f move =>
    have unbudgeted : Unbudgeted (goOn (enterCallee i.span f room)) :=
      (isLocal_enterCallee i.span f room).unbudgeted.bind fun _ _ _ _ => rfl
    exact .of_all fun k t => Turn.of_eq (.enter move) (unbudgeted m k t)
  | @invoke id f ret move =>
    have unbudgeted : Unbudgeted (finish (callNative i.span id f ret)) :=
      Unbudgeted.bind (unbudgeted_callNative _ _ _ _) fun _ _ _ _ => rfl
    exact .of_all fun k t => Turn.of_eq (.invoke move) (unbudgeted m k t)
  | @act action move =>
    rw [move] at plain
    exact .of_all fun k t => Turn.of_eq (.act move) (Plain.isLocal plain |>.unbudgeted m k t)

theorem Turns.splits {r : Result Variable} (around : ∀ c m r, run c m r → m.Around r.2)
    (splits : ∀ c m r, run c m r → Splits (run c) m r) (h : Turns run p room i m r) :
    Splits (Turns run p room i) m r := by
  induction h with
  | done last =>
    have same := last.splits around splits
    exact .of_all fun k t => .done (same.ends nofun k t)
  | @left m m' e last =>
    have same := last.splits around splits
    refine ⟨fun he k t => .left (same.ends (fun h => he (by cases h; rfl)) k t), fun he => ?_⟩
    cases he
    rcases same.pauses rfl with ⟨budget, later, resume⟩ | all
    · exact .inl ⟨budget, fun t => .left (later t), fun k t r' h => h.congr (resume k t)⟩
    · exact .inr fun k t => .left (all k t)
  | next first rest ih =>
    have same := (first.splits around splits).ends nofun
    refine ⟨fun he k t => .next (same k t) (ih.ends he k t), fun he => ?_⟩
    rcases ih.pauses he with ⟨budget, later, resume⟩ | all
    · exact .inl ⟨budget, fun t => .next (same 0 t) (later t),
        fun k t r' h => .next (same k t) (resume k t r' h)⟩
    · exact .inr fun k t => .next (same k t) (all k t)

theorem Splits.settle {R : Machine → Result Variable → Prop} {c : Exec Variable} (plain : Plain (fun _ => True) c)
    (is : ∀ k t, R (m.more k t) (settle c (m.more k t))) : Splits R m (settle c m) := by
  refine .of_all fun k t => ?_
  have same : Exec.settle c (m.more k t) = ((Exec.settle c m).1, (Exec.settle c m).2.more k t) := by
    rw [settle_of_running (plain.ne_suspended _), settle_of_running (plain.ne_suspended _),
      plain.isLocal.unbudgeted m k t]
    rfl
  exact same ▸ is k t

theorem Executes.splits {r : Result Variable} (h : Executes p room i m r) :
    Splits (Executes p room i) m r := by
  induction room generalizing i m r with
  | zero =>
    cases hl : i.isLeaf with
    | true =>
      cases (of_leaf hl).1 h
      exact .settle (.leaf trivial) fun k t => (of_leaf hl).2 rfl
    | false =>
      cases (of_overflow hl).1 h
      exact .settle (.faultAt trivial _) fun k t => (of_overflow hl).2 rfl
  | succ room ih =>
    cases hl : i.isLeaf with
    | true =>
      cases (of_leaf hl).1 h
      exact .settle (.leaf trivial) fun k t => (of_leaf hl).2 rfl
    | false =>
      cases hm : m.enter? i.id with
      | none =>
        have none (k t : Nat) : (m.more k t).enter? i.id = none := by rw [m.enter?_more, hm]; rfl
        cases (of_not_restored hl hm).1 h
        exact .settle (.faultAt trivial _) fun k t => (of_not_restored hl (none k t)).2 rfl
      | some inside =>
        have some (k t : Nat) : (m.more k t).enter? i.id = some (inside.more k t) := by
          rw [m.enter?_more, hm]
          rfl
        obtain ⟨⟨o, m'⟩, turns, rfl⟩ := (of_enter hl hm).1 h
        have around : ∀ c m r, Executes p room c m r → m.Around r.2 := fun _ _ _ h => h.around
        have same := turns.splits around fun _ _ _ h => ih h
        by_cases ho : o = .error .suspended
        · subst ho
          have executes {k t k' t' : Nat} (h : Turns (Executes p room) p room i (inside.more k t)
              (.error .suspended, m'.more k' t')) : Executes p (room + 1) i (m.more k t)
              (.error .suspended, m'.suspend.more k' t') :=
            (of_enter hl (some k t)).2 ⟨_, h, rfl⟩
          refine ⟨fun h => absurd rfl h, fun _ => ?_⟩
          rcases same.pauses rfl with ⟨budget, later, resume⟩ | all
          · refine .inl ⟨budget, fun t => executes (later t), fun k t r' h => ?_⟩
            -- The frame left behind is of this instruction, so it is the one gone on with.
            have again : (m'.suspend.more k t).enter? i.id = Option.some (m'.more k t) := by
              obtain ⟨f, deeper, node, live, hi⟩ := m.enter?_frames hm
              obtain ⟨hm', kind⟩ := (turns.inside around).own_kind (by rw [hi]; exact List.cons_ne_nil _ _)
              rw [hi] at kind
              rw [Machine.enter?_more, Machine.enter?_suspend hm'
                ((congrArg Prod.fst kind).trans node) ((congrArg (fun k => k.2.2) kind).trans live)]
              rfl
            obtain ⟨left, turns', rfl⟩ := (of_enter hl again).1 h
            exact (of_enter hl (some k t)).2 ⟨left, resume k t left turns', rfl⟩
          · exact .inr fun k t => executes (all k t)
        · rw [leaveFrame_of_running ho]
          refine .of_all fun k t => (of_enter hl (some k t)).2 ⟨_, same.ends ho k t, ?_⟩
          exact (leaveFrame_of_running ho (m'.more k t)).symm

end Tickwise
