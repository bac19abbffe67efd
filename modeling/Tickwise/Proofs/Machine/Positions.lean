import Tickwise.Proofs.Machine.Turns
set_option autoImplicit false

/-!
# The positions of a frame

Where an instruction goes on from each of its positions. Between two steps it goes through finitely
many: `Form.rank` bounds how many.
-/
namespace Tickwise

def entriesFrom {α : Type} (items : List α) (index : Int) : Nat :=
  if index < 0 then 0 else items.length - index.toNat

theorem entriesFrom_le {α : Type} (items : List α) (index : Int) :
    entriesFrom items index ≤ items.length := by
  unfold entriesFrom
  split <;> omega

theorem entriesFrom_succ_lt {α : Type} {items : List α} {index : Int} {a : α}
    (h : itemAt? items index = some a) :
    entriesFrom items (index + 1) < entriesFrom items index := by
  unfold itemAt? at h
  split at h
  · cases h
  · have hlt := (List.getElem?_eq_some_iff.1 h).1
    unfold entriesFrom
    rw [if_neg (by omega), if_neg (by omega)]
    omega

namespace Form

@[simp] def states {ι : Type} : Form ι → Nat
  | block _ | declare .. | store .. | binary .. | logical .. => 2
  | branch .. | whileLoop .. | doWhile .. | switch .. | tryCatch .. | ternary .. | call .. => 3
  | forLoop .. => 5
  | _ => 1

/-- How many of them are reached without entering a function; those come first. -/
@[simp] def ownStates {ι : Type} : Form ι → Nat
  | call .. => 2
  | form => form.states

/-- How often an instruction can go on from a position, and from those that it leads to, before it
takes a step. -/
@[simp] def rank {ι : Type} (form : Form ι) (state : Nat) (index : Int) : Nat :=
  match form, state with
  | block _, 0 => 0
  | block _, _ => 1
  | declList items, _ => entriesFrom items index
  | declare _ _ _ dims _, 0 => entriesFrom dims index + 1
  | branch .., 0 => 1
  | whileLoop .., 0 => 1
  | whileLoop .., 1 => 0
  | whileLoop .., _ => 2
  | doWhile .., 0 => 0
  | doWhile .., 1 => 2
  | doWhile .., _ => 1
  | forLoop _ init _ _ _, 0 => entriesFrom init index + 2
  | forLoop .., 1 => 1
  | forLoop .., 2 => 0
  | forLoop _ _ _ next _, 3 => entriesFrom next 0 + 3
  | forLoop _ _ _ next _, _ => entriesFrom next index + 2
  | switch .., 1 => 0
  | switch .., _ => 1
  | tryCatch _ catches, 0 => entriesFrom catches 0 + 2
  | tryCatch _ _, 2 => 0
  | tryCatch _ catches, _ => entriesFrom catches index + 1
  | load place, _ => entriesFrom place.indices index
  | step place _ _, _ => entriesFrom place.indices index
  | store place _ _ _, 0 => entriesFrom place.indices index + 1
  | binary .., 0 => 1
  | logical .., 0 => 1
  | ternary .., 0 => 1
  | call _ args _, 0 => entriesFrom args index + 2
  | call _ _ _, 1 => 1
  | list _ elements, _ => entriesFrom elements index
  | _, _ => 0

end Form

namespace Exec

variable {α β : Type}

/-- If a computation leaves more to do, then at a position of this kind. `index` is that of the frame
before. -/
def GoesTo (index : Int) (P : Nat → Int → Prop) (c : Exec (Option Variable)) : Prop :=
  ∀ m m' : Machine, m.frames ≠ [] → m.own.index = index → c m = (.ok none, m') →
    P m'.own.state m'.own.index ∧ m'.own.scope = m.own.scope

def KeepsIndex (c : Exec α) : Prop :=
  ∀ m : Machine, m.frames ≠ [] →
    (c m).2.frames ≠ [] ∧ (c m).2.own.index = m.own.index ∧ (c m).2.own.scope = m.own.scope

theorem KeepsIndex.of_snd {c : Exec α} (h : ∀ m, (c m).2 = m) : KeepsIndex c := by
  intro m hm
  rw [h m]
  exact ⟨hm, rfl, rfl⟩

theorem check_snd (span : Span) (r : Except Fault α) (m : Machine) : (check span r m).2 = m := by
  cases r <;> rfl

theorem checkCrash_snd (span : Span) (crash? : Heap → Option Crash) (f : Heap → Except Fault α) (m : Machine) :
    (checkCrash span crash? f m).2 = m := by
  rw [checkCrash_apply]
  cases crash? m.heap with
  | none => exact check_snd span (f m.heap) m
  | some c => rfl

theorem catches_snd (span : Span) (filter : Variable) (code : Int32) (m : Machine) :
    (catches span filter code m).2 = m := by
  unfold catches
  split
  · exact check_snd ..
  · rw [bind_apply]
    cases filter.toInt <;> rfl

theorem keepsIndex_check (span : Span) (r : Except Fault α) : KeepsIndex (check span r) :=
  .of_snd (check_snd span r)

theorem keepsIndex_catches (span : Span) (filter : Variable) (code : Int32) :
    KeepsIndex (catches span filter code) :=
  .of_snd (catches_snd span filter code)

theorem keepsIndex_setOperands (vs : List Variable) : KeepsIndex (setOperands vs) := by
  rintro ⟨_ | ⟨f, fs⟩, _⟩ hm
  · exact absurd rfl hm
  · exact ⟨nofun, rfl, rfl⟩

theorem keepsIndex_pushOperand (v : Variable) : KeepsIndex (pushOperand v) := by
  rintro ⟨_ | ⟨f, fs⟩, _⟩ hm
  · exact absurd rfl hm
  · exact ⟨nofun, rfl, rfl⟩

theorem keepsIndex_placeCallee (span : Span) (node : NodeId) (params : List Variable) :
    KeepsIndex (placeCallee span node params) := by
  intro m hm
  unfold placeCallee
  split
  case h_1 n hn =>
    rw [Machine.eq_of_placeCallee?_eq_some hn]
    exact ⟨hm, rfl, rfl⟩
  case h_2 => exact ⟨hm, rfl, rfl⟩

theorem goOn_bind (c : Exec α) (f : α → Exec Unit) :
    goOn (c >>= f) = c >>= fun a => goOn (f a) := by
  funext m
  unfold goOn
  simp only [bind_apply]
  rcases c m with ⟨_ | a, m'⟩ <;> rfl

namespace GoesTo

variable {index : Int} {P : Nat → Int → Prop}

theorem throw (e : Interrupt) : GoesTo index P (throw e) := nofun

theorem faultAt (span : Span) (fault : Fault) : GoesTo index P (faultAt span fault) := nofun

theorem finish (c : Exec Variable) : GoesTo index P (finish c) :=
  fun m m' _ _ h => absurd h (finish_ne_none c m m')

theorem setPosition {state : Nat} {at_ : Int} (h : P state at_) :
    GoesTo index P (goOn (setPosition state at_)) := by
  rintro ⟨_ | ⟨f, fs⟩, _⟩ m' hm hi hc
  · exact absurd rfl hm
  · cases hc
    exact ⟨h, rfl⟩

theorem nextIndex {state : Nat} (h : P state (index + 1)) :
    GoesTo index P (goOn (nextIndex state)) := by
  rintro ⟨_ | ⟨f, fs⟩, _⟩ m' hm hi hc
  · exact absurd rfl hm
  · cases hc
    subst hi
    exact ⟨h, rfl⟩

theorem bind {c : Exec α} {f : α → Exec (Option Variable)} (hc : KeepsIndex c)
    (hf : ∀ a, GoesTo index P (f a)) : GoesTo index P (c >>= f) := by
  intro m m' hm hi h
  obtain ⟨hm', hi', hs⟩ := hc m hm
  rw [bind_apply] at h
  generalize c m = r at h hm' hi' hs
  obtain ⟨_ | a, m₁⟩ := r
  · cases h
  · obtain ⟨hp, hs'⟩ := hf a m₁ m' hm' (hi'.trans hi) h
    exact ⟨hp, hs'.trans hs⟩

theorem goOn_bind {c : Exec α} {f : α → Exec Unit} (hc : KeepsIndex c)
    (hf : ∀ a, GoesTo index P (goOn (f a))) : GoesTo index P (goOn (c >>= f)) := by
  rw [Exec.goOn_bind]
  exact bind hc hf

theorem ite {c d : Exec (Option Variable)} {q : Prop} [Decidable q] (hc : GoesTo index P c)
    (hd : GoesTo index P d) : GoesTo index P (if q then c else d) := by
  split
  · exact hc
  · exact hd

theorem absorb (label : Option String) (isLoop : Bool) {next : Exec Unit}
    (h : GoesTo index P (goOn next)) (o : Except Interrupt Variable) :
    GoesTo index P (absorb label isLoop next o) := by
  cases o with
  | ok v => exact h
  | error e =>
    cases e with
    | breakTo target => exact ite (finish _) (throw _)
    | continueTo target => exact ite h (throw _)
    | _ => exact throw _

theorem attempt (h : P 1 0) (o : Except Interrupt Variable) : GoesTo index P (attempt o) := by
  cases o with
  | ok v => exact finish _
  | error e =>
    cases e with
    | fault error => exact ite (throw _) (goOn_bind (keepsIndex_setOperands _) fun _ => setPosition h)
    | _ => exact throw _

theorem result (span : Span) (ret : Ty) (o : Except Interrupt Variable) :
    GoesTo index P (result span ret o) := by
  cases o with
  | ok v => exact finish _
  | error e =>
    cases e with
    | returned v => exact finish _
    | _ => exact throw _

theorem enterCallee (span : Span) (f : Function) (room : Nat) (h : P 2 0) :
    GoesTo index P (goOn (enterCallee span f room)) := by
  refine goOn_bind (.of_snd fun _ => rfl) fun _ => ?_
  refine goOn_bind (keepsIndex_setOperands _) fun _ => ?_
  refine goOn_bind (.of_snd (checkCrash_snd span _ _)) fun params => ?_
  split
  · nofun
  · exact goOn_bind (keepsIndex_placeCallee _ _ _) fun _ => setPosition h

end GoesTo
end Exec

open Exec

/-- A position reached without entering a function, with fewer positions behind it than `state` and
`index`. -/
def Form.Behind (form : Form Instr) (state : Nat) (index : Int) (s : Nat) (n : Int) : Prop :=
  s < form.ownStates ∧ form.rank s n < form.rank state index

namespace Move

/-- The positions that a move leads to are of this kind; of those behind a step the state is, and `E`
holds if it enters a function. -/
def Leads (index : Int) (states : Nat) (E : Prop) (P : Nat → Int → Prop) : Move → Prop
  | run _ follow => ∀ o, GoesTo index P (follow o)
  | pass _ state _ => state < states
  | enter _ => E
  | invoke .. => True
  | act action => GoesTo index P action

namespace Leads

variable {index : Int} {states : Nat} {E : Prop} {P : Nat → Int → Prop}

theorem eval {e : Instr} {follow : Variable → Exec (Option Variable)}
    (h : ∀ v, GoesTo index P (follow v)) : (Move.eval e follow).Leads index states E P := by
  rintro (e | v)
  · exact .throw e
  · exact h v

theorem test {cond : Instr} {follow : Bool → Exec (Option Variable)}
    (h : ∀ b, GoesTo index P (follow b)) : (Move.test cond follow).Leads index states E P :=
  eval fun _ => .bind (keepsIndex_check _ _) h

theorem loopTest {cond : Instr} {next : Exec Unit} (h : GoesTo index P (goOn next)) :
    (Move.test cond fun b => if b then goOn next else finish void).Leads index states E P :=
  test fun _ => .ite h (.finish _)

theorem sequence {items : List Instr} {state : Nat} {afterwards : Exec (Option Variable)}
    (next : ∀ i, itemAt? items index = some i → P state (index + 1))
    (h : GoesTo index P afterwards) :
    (Move.sequence items index state afterwards).Leads index states E P := by
  unfold Move.sequence
  split
  case h_1 i hi => exact eval fun _ => .nextIndex (next i hi)
  case h_2 => exact h

theorem collect {es : List Instr} {afterwards : Exec (Option Variable)}
    (next : ∀ e, itemAt? es index = some e → P 0 (index + 1)) (h : GoesTo index P afterwards) :
    (Move.collect es index afterwards).Leads index states E P := by
  unfold Move.collect
  split
  case h_1 e he => exact eval fun v => .goOn_bind (keepsIndex_pushOperand v) fun _ => .nextIndex (next e he)
  case h_2 => exact h

end Leads
end Move

/-- Each move of a form leads to positions that it has, and unless it takes a step to such with fewer
behind them. -/
def Form.Ranks (form : Form Instr) (f : Frame Variable) (move : Move) : Prop :=
  move.Leads f.index form.ownStates (2 < form.states ∧ form.rank 2 0 < form.rank f.state f.index)
    (form.Behind f.state f.index)

namespace Form

open Move

theorem ranks_sequence {form : Form Instr} {items : List Instr} {f : Frame Variable}
    {state : Nat} {afterwards : Exec (Option Variable)} (rest : Nat) (hs : state < form.ownStates)
    (rank : ∀ n, form.rank state n = entriesFrom items n + rest)
    (rank' : form.rank f.state f.index = entriesFrom items f.index + rest)
    (h : GoesTo f.index (form.Behind f.state f.index) afterwards) :
    form.Ranks f (.sequence items f.index state afterwards) := by
  refine Leads.sequence (fun i hi => ⟨hs, ?_⟩) h
  rw [rank, rank']
  exact Nat.add_lt_add_right (entriesFrom_succ_lt hi) rest

theorem ranks_collect {form : Form Instr} {es : List Instr} {f : Frame Variable}
    {afterwards : Exec (Option Variable)} (rest : Nat) (hs : 0 < form.ownStates)
    (rank : ∀ n, form.rank 0 n = entriesFrom es n + rest)
    (rank' : form.rank f.state f.index = entriesFrom es f.index + rest)
    (h : GoesTo f.index (form.Behind f.state f.index) afterwards) :
    form.Ranks f (.collect es f.index afterwards) := by
  refine Leads.collect (fun e he => ⟨hs, ?_⟩) h
  rw [rank, rank']
  exact Nat.add_lt_add_right (entriesFrom_succ_lt he) rest

theorem ranks_ofBlock (body : List Instr) (f : Frame Variable) :
    (block body).Ranks f (ofBlock body f) := by
  unfold ofBlock
  split
  · exact .finish _
  · split
    · exact Nat.one_lt_two
    · rename_i hs
      refine Leads.eval fun _ => .nextIndex ⟨Nat.zero_lt_two, ?_⟩
      simp

theorem ranks_ofDeclare (span : Span) (var : VarId) (name : String) (ty : Ty) (dims : List Instr)
    (init : Option Instr) (f : Frame Variable) :
    (declare var name ty dims init).Ranks f (ofDeclare span var name ty dims init f) := by
  unfold ofDeclare
  split
  case isTrue hs =>
    refine ranks_collect 1 Nat.zero_lt_two (fun _ => rfl) (by rw [hs]; rfl) (.setPosition ?_)
    simp [Behind, hs]
  case isFalse =>
    cases init with
    | some init => exact Leads.eval fun _ => .finish _
    | none => exact GoesTo.finish _

theorem ranks_ofBranch (cond yes : Instr) (no : Option Instr) (f : Frame Variable) :
    (branch cond yes no).Ranks f (ofBranch cond yes no f) := by
  unfold ofBranch
  split
  case h_1 hs =>
    refine Leads.test fun b => .setPosition ?_
    cases b <;> simp [Behind, hs]
  case h_2 => exact Leads.eval fun _ => .finish _
  case h_3 =>
    cases no with
    | some no => exact Leads.eval fun _ => .finish _
    | none => exact GoesTo.finish _

theorem ranks_ofWhile (span : Span) (label : Option String) (cond body : Instr) (f : Frame Variable) :
    (whileLoop label cond body).Ranks f (ofWhile span label cond body f) := by
  unfold ofWhile
  split
  case h_1 hs => exact Leads.loopTest (.setPosition (by simp [Behind, hs]))
  case h_2 => exact (by decide : 2 < 3)
  case h_3 h₀ h₁ => exact .absorb _ _ (.setPosition (by simp [Behind]))

theorem ranks_ofDoWhile (span : Span) (label : Option String) (body cond : Instr)
    (f : Frame Variable) : (doWhile label body cond).Ranks f (ofDoWhile span label body cond f) := by
  unfold ofDoWhile
  split
  case h_1 => exact (by decide : 1 < 3)
  case h_2 hs => exact .absorb _ _ (.setPosition (by simp [Behind, hs]))
  case h_3 h₀ h₁ => exact Leads.loopTest (.setPosition (by simp [Behind]))

theorem ranks_ofFor (span : Span) (label : Option String) (init : List Instr) (cond : Option Instr)
    (next : List Instr) (body : Instr) (f : Frame Variable) :
    (forLoop label init cond next body).Ranks f (ofFor span label init cond next body f) := by
  unfold ofFor
  split
  case h_1 hs =>
    refine ranks_sequence 2 (by simp) (fun _ => rfl) (by rw [hs]; rfl) (.setPosition ?_)
    simp [Behind, hs]
  case h_2 hs =>
    have to_step : (forLoop label init cond next body).Behind f.state f.index 2 0 := by
      simp [Behind, hs]
    cases cond with
    | some cond => exact Leads.loopTest (.setPosition to_step)
    | none => exact GoesTo.setPosition to_step
  case h_3 => exact (by decide : 3 < 5)
  case h_4 hs => exact .absorb _ _ (.setPosition (by simp [Behind, hs]))
  case h_5 h₀ h₁ h₂ h₃ =>
    refine ranks_sequence 2 (by simp) (fun _ => rfl) ?_ (.setPosition ⟨by simp, ?_⟩)
    · simp
    · simp

theorem ranks_ofSwitch (span : Span) (label : Option String) (value : Instr) (cases : List Case)
    (body : List Instr) (f : Frame Variable) :
    (switch label value cases body).Ranks f (ofSwitch span label value cases body f) := by
  unfold ofSwitch
  split
  case isTrue hs =>
    refine Leads.eval fun v => .bind (keepsIndex_check _ _) fun n => ?_
    cases chooseCase cases n with
    | some c => exact .setPosition (by simp [Behind, hs])
    | none => exact .finish _
  case isFalse =>
    split
    · exact .finish _
    · split
      case isTrue => exact (by decide : 2 < 3)
      case isFalse h₁ => exact .absorb _ _ (.nextIndex (by simp [Behind]))

theorem ranks_ofTry (body : Instr) (cs : List (Catch Instr)) (f : Frame Variable) :
    (tryCatch body cs).Ranks f (ofTry body cs f) := by
  unfold ofTry
  split
  case isTrue hs => exact .attempt (by simp [Behind, hs])
  case isFalse hs =>
    split
    · exact .faultAt _ _
    · split
      · exact .throw _
      · split
        case isTrue => exact Leads.eval fun _ => .finish _
        case h_2.isFalse c hc h₂ =>
          have rank : (tryCatch body cs).rank f.state f.index = entriesFrom cs f.index + 1 := by
            simp
          refine Leads.eval fun v => .bind (keepsIndex_catches _ _ _) fun b => .ite ?_ ?_
          · exact .setPosition ⟨by simp, by rw [rank]; exact Nat.succ_pos _⟩
          · refine .nextIndex ⟨by simp, ?_⟩
            rw [rank]
            exact Nat.succ_lt_succ (entriesFrom_succ_lt hc)

theorem ranks_ofStore (span : Span) (place : Place Instr) (op : Option BinaryOp) (operandTy : Ty)
    (value : Instr) (f : Frame Variable) :
    (store place op operandTy value).Ranks f (ofStore span place op operandTy value f) := by
  unfold ofStore
  split
  case isTrue hs =>
    refine ranks_collect 1 Nat.zero_lt_two (fun _ => rfl) (by rw [hs]; rfl) (.setPosition ?_)
    simp [Behind, hs]
  case isFalse => exact Leads.eval fun _ => .finish _

theorem ranks_ofBinary (span : Span) (op : BinaryOp) (operandTy : Ty) (left right : Instr)
    (f : Frame Variable) :
    (binary op operandTy left right).Ranks f (ofBinary span op operandTy left right f) := by
  unfold ofBinary
  split
  case isTrue hs =>
    exact Leads.eval fun v => .goOn_bind (keepsIndex_pushOperand v) fun _ =>
      .setPosition (by simp [Behind, hs])
  case isFalse => exact Leads.eval fun _ => .finish _

theorem ranks_ofLogical (span : Span) (isAnd : Bool) (left right : Instr) (f : Frame Variable) :
    (logical isAnd left right).Ranks f (ofLogical span isAnd left right f) := by
  unfold ofLogical
  split
  case isTrue hs =>
    exact Leads.eval fun _ => .bind (keepsIndex_check _ _) fun _ =>
      .ite (.setPosition (by simp [Behind, hs])) (.finish _)
  case isFalse => exact Leads.eval fun _ => .finish _

theorem ranks_ofTernary (cond yes no : Instr) (f : Frame Variable) :
    (ternary cond yes no).Ranks f (ofTernary cond yes no f) := by
  unfold ofTernary
  split
  case h_1 hs =>
    refine Leads.test fun b => .setPosition ?_
    cases b <;> simp [Behind, hs]
  case h_2 => exact Leads.eval fun _ => .finish _
  case h_3 => exact Leads.eval fun _ => .finish _

theorem ranks_ofCall (p : Program) (span : Span) (callee : Callee) (args : List Instr) (ret : Ty)
    (f : Frame Variable) : (call callee args ret).Ranks f (ofCall p span callee args ret f) := by
  unfold ofCall
  split
  case isTrue hs =>
    refine ranks_collect 2 (by simp) (fun _ => rfl) (by rw [hs]; rfl) (.setPosition ?_)
    simp [Behind, hs]
  case isFalse hs =>
    cases callee with
    | native id =>
      dsimp only
      split
      · exact .faultAt _ _
      · trivial
    | user id =>
      dsimp only
      split
      · exact .faultAt _ _
      · split
        case h_2.isTrue h₁ => exact ⟨(by decide : 2 < 3), by rw [h₁]; exact Nat.zero_lt_one⟩
        case h_2.isFalse => exact .result _ _

end Form

theorem Instr.move_openScope {p : Program} {i : Instr} {f : Frame Variable}
    (h : (i.form.isScope && !f.scope) = true) : i.move p f = .act (goOn openScope) := by
  rw [move, if_pos h]

theorem Instr.opened_of_move {p : Program} {i : Instr} {f : Frame Variable}
    (h : ∀ action, i.move p f ≠ .act action) : (i.form.isScope && !f.scope) = false :=
  Bool.eq_false_iff.2 fun hs => h _ (move_openScope hs)

theorem Instr.move_ranks {p : Program} {i : Instr} {f : Frame Variable}
    (h : (i.form.isScope && !f.scope) = false) : i.form.Ranks f (i.move p f) := by
  rw [move, if_neg (by simp [h])]
  cases i.form with
  | block body => exact Form.ranks_ofBlock ..
  | declList items =>
    exact Form.ranks_sequence 0 (by simp) (fun _ => rfl) rfl (.finish _)
  | declare => exact Form.ranks_ofDeclare ..
  | branch => exact Form.ranks_ofBranch ..
  | whileLoop => exact Form.ranks_ofWhile ..
  | doWhile => exact Form.ranks_ofDoWhile ..
  | forLoop => exact Form.ranks_ofFor ..
  | switch => exact Form.ranks_ofSwitch ..
  | ret value =>
    cases value with
    | none => exact GoesTo.finish _
    | some value => exact Move.Leads.eval fun _ => .throw _
  | tryCatch => exact Form.ranks_ofTry ..
  | throw value => exact Move.Leads.eval fun _ => .bind (keepsIndex_check _ _) fun _ => .faultAt _ _
  | load => exact Form.ranks_collect 0 (by simp) (fun _ => rfl) rfl (.finish _)
  | store => exact Form.ranks_ofStore ..
  | step => exact Form.ranks_collect 0 (by simp) (fun _ => rfl) rfl (.finish _)
  | binary => exact Form.ranks_ofBinary ..
  | logical => exact Form.ranks_ofLogical ..
  | unary => exact Move.Leads.eval fun _ => .finish _
  | ternary => exact Form.ranks_ofTernary ..
  | convert => exact Move.Leads.eval fun _ => .finish _
  | call => exact Form.ranks_ofCall ..
  | list => exact Form.ranks_collect 0 (by simp) (fun _ => rfl) rfl (.finish _)
  | _ => exact GoesTo.finish _

/-- The rank of the position of a frame. Opening its scope comes first. -/
def Instr.rank (i : Instr) (f : Frame Variable) : Nat :=
  i.form.rank f.state f.index + if i.form.isScope && !f.scope then 1 else 0

theorem Instr.rank_of_open {i : Instr} {f : Frame Variable}
    (h : (i.form.isScope && !f.scope) = false) : i.rank f = i.form.rank f.state f.index := by
  rw [rank, h]
  rfl

theorem Instr.rank_openScope {i : Instr} {f : Frame Variable}
    (h : (i.form.isScope && !f.scope) = true) : i.rank { f with scope := true } < i.rank f := by
  unfold rank
  rw [h]
  simp

/-- How an instruction goes on in its frame from `m`, with more to do at `m'`. -/
inductive Continues (p : Program) (i : Instr) (m m' : Machine) : Prop
  | opened (move : i.move p m.own = .act (goOn openScope))
      (same : m' = m.modifyFrame ({ · with scope := true })) (less : i.rank m'.own < i.rank m.own)
  | entered {f : Function} (move : i.move p m.own = .enter f) (state : m'.own.state = 2)
      (index : m'.own.index = 0) (less : i.rank m'.own < i.rank m.own)
  | moved (opened : (i.form.isScope && !m.own.scope) = false)
      (own : ∀ f, i.move p m.own ≠ .enter f) (state : m'.own.state < i.form.ownStates)
      (less : m'.budget < m.budget ∨ i.rank m'.own < i.rank m.own)

/-- A turn that leaves more to do goes on at a position of the instruction. It takes a step or lowers
the rank. -/
theorem Turn.continues {run : Instr → Machine → Result Variable → Prop} {p : Program}
    {room : Nat} {i : Instr} {m m' : Machine} (hr : ∀ c m r, run c m r → m.Around r.2)
    (hm : m.frames ≠ []) (h : Turn run p room i m (.ok none, m')) : Continues p i m m' := by
  generalize hc : ((.ok none, m') : Result (Option Variable)) = r at h
  cases hs : (i.form.isScope && !m.own.scope) with
  | true =>
    have opens := i.move_openScope hs (p := p)
    cases h with
    | act move =>
      cases opens.symm.trans move
      obtain ⟨_ | ⟨f, fs⟩, _⟩ := m
      · exact absurd rfl hm
      · cases hc
        exact .opened opens rfl (Instr.rank_openScope hs)
    | _ => simp_all
  | false =>
    have ranks := i.move_ranks hs (p := p)
    have lower : i.form.rank m'.own.state m'.own.index < i.form.rank m.own.state m.own.index →
        m'.own.scope = m.own.scope → i.rank m'.own < i.rank m.own := by
      intro rank scope
      rwa [Instr.rank_of_open hs, Instr.rank_of_open (by rwa [scope])]
    cases h with
    | @child c follow o m₁ move inner =>
      rw [move] at ranks
      have around := hr c m _ inner
      have scope := congrArg Frame.scope around.own
      have index := congrArg Frame.index around.own
      obtain ⟨position, scope'⟩ := ranks o m₁ m' (around.frames_ne_nil hm) index hc.symm
      exact .moved hs (by simp [move]) position.1 (.inr (lower position.2 (scope'.trans scope)))
    | pass move =>
      rw [move] at ranks
      rw [pass_apply] at hc
      split at hc
      · cases hc
      · split at hc
        · cases hc
        · obtain ⟨_ | ⟨f, fs⟩, _⟩ := m
          · exact absurd rfl hm
          · cases hc
            refine .moved hs (by simp [move]) ranks (.inl ?_)
            change _ - 1 < _
            omega
    | enter move =>
      rw [move] at ranks
      have position := GoesTo.enterCallee (P := fun s n => s = 2 ∧ n = 0) i.span _ room ⟨rfl, rfl⟩ m m'
        hm rfl hc.symm
      obtain ⟨⟨state, index⟩, scope⟩ := position
      exact .entered move state index (lower (by rw [state, index]; exact ranks.2) scope)
    | invoke move => exact absurd hc.symm (finish_ne_none _ m m')
    | act move =>
      rw [move] at ranks
      obtain ⟨position, scope⟩ := ranks m m' hm rfl hc.symm
      exact .moved hs (by simp [move]) position.1 (.inr (lower position.2 scope))

theorem Continues.less {p : Program} {i : Instr} {m m' : Machine} (h : Continues p i m m') :
    m'.budget < m.budget ∨ i.rank m'.own < i.rank m.own := by
  cases h with
  | opened _ _ less => exact .inr less
  | entered _ _ _ less => exact .inr less
  | moved _ _ _ less => exact less

end Tickwise
