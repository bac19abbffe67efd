import Tickwise.Proofs.Machine.Invoked
import Tickwise.Proofs.Machine.KeepingRuns
set_option autoImplicit false

/-!
# Disciplines that permit every conversion

Under such a discipline only literals and natives matter. What is known of instructions is then what holds of
their parts and of all function bodies too.
-/
namespace Tickwise

/-- What a move executes is a part of an instruction or the body of a function, and what it invokes is a native
of the host. -/
def Move.Inside (p : Program) (parts : List Instr) : Move → Prop
  | .run c _ => c ∈ parts ∨ ∃ g ∈ p.functions, c = g.body
  | .invoke id f _ => p.env.natives.get? id = some f
  | _ => True

namespace Move.Inside

variable {p : Program} {parts items : List Instr} {span : Span}

theorem sequence {index : Int} {state : Nat} {afterwards : Exec (Option Variable)} (sub : items ⊆ parts) :
    (Move.sequence items index state afterwards).Inside p parts := by
  unfold Move.sequence
  cases found : itemAt? items index with
  | none => trivial
  | some item => exact .inl (sub (mem_of_itemAt? found))

theorem collect {index : Int} {afterwards : Exec (Option Variable)} (sub : items ⊆ parts) :
    (Move.collect items index afterwards).Inside p parts := by
  unfold Move.collect
  cases found : itemAt? items index with
  | none => trivial
  | some e => exact .inl (sub (mem_of_itemAt? found))

variable {f : Frame Variable}

theorem ofBlock (body : List Instr) : (Move.ofBlock body f).Inside p body := by
  unfold Move.ofBlock
  cases found : itemAt? body f.index with
  | none => trivial
  | some s =>
    dsimp only
    split
    · trivial
    · exact .inl (mem_of_itemAt? found)

theorem ofFor (label : Option String) (init : List Instr) (cond : Option Instr) (next : List Instr) (body : Instr) :
    (Move.ofFor span label init cond next body f).Inside p (init ++ cond.toList ++ next ++ [body]) := by
  unfold Move.ofFor
  split
  · exact .sequence fun _ h => by simp [h]
  · cases cond with
    | some cond => exact .inl (by simp)
    | none => trivial
  · trivial
  · exact .inl (by simp)
  · exact .sequence fun _ h => by simp [h]

theorem ofSwitch (label : Option String) (value : Instr) (cases_ : List Case) (body : List Instr) :
    (Move.ofSwitch span label value cases_ body f).Inside p (value :: body) := by
  unfold Move.ofSwitch
  split
  · exact .inl List.mem_cons_self
  · cases found : itemAt? body f.index with
    | none => trivial
    | some s =>
      dsimp only
      split
      · trivial
      · exact .inl (List.mem_cons_of_mem _ (mem_of_itemAt? found))

theorem ofTry (body : Instr) (cs : List (Catch Instr)) :
    (Move.ofTry body cs f).Inside p (body :: cs.flatMap fun c => [c.filter, c.handler]) := by
  unfold Move.ofTry
  split
  · exact .inl List.mem_cons_self
  · cases Exec.caughtCode? f.operands with
    | none => trivial
    | some code =>
      cases found : itemAt? cs f.index with
      | none => trivial
      | some c =>
        have clause : ∀ i ∈ [c.filter, c.handler], i ∈ body :: cs.flatMap fun c => [c.filter, c.handler] :=
          fun i hi => List.mem_cons_of_mem _ (List.mem_flatMap.2 ⟨c, mem_of_itemAt? found, hi⟩)
        dsimp only
        split
        · exact .inl (clause _ (List.mem_cons_of_mem _ List.mem_cons_self))
        · exact .inl (clause _ List.mem_cons_self)

theorem ofCall (callee : Callee) (args : List Instr) (ret : Ty) : (Move.ofCall p span callee args ret f).Inside p args := by
  unfold Move.ofCall
  split
  · exact .collect (List.Subset.refl _)
  · cases callee with
    | native id =>
      dsimp only
      cases native : p.env.natives.get? id with
      | none => trivial
      | some g => exact native
    | user id =>
      dsimp only
      cases found : p.function? id with
      | none => trivial
      | some g =>
        dsimp only
        split
        · trivial
        · exact .inr ⟨g, List.mem_of_getElem? found, rfl⟩

end Move.Inside

theorem Instr.move_inside (p : Program) (i : Instr) (f : Frame Variable) : (i.move p f).Inside p i.children := by
  unfold Instr.move Instr.children
  split
  · trivial
  · cases i.form with
    | block body => exact .ofBlock body
    | declList items => exact .sequence (List.Subset.refl _)
    | declare var name ty dims init =>
      dsimp only
      unfold Move.ofDeclare
      split
      · exact .collect (List.subset_append_left _ _)
      · cases init with
        | none => trivial
        | some e => exact .inl (List.mem_append_right _ List.mem_cons_self)
    | branch cond yes no =>
      dsimp only
      unfold Move.ofBranch
      split
      · exact .inl (by simp [Form.children])
      · exact .inl (by simp [Form.children])
      · cases no with
        | none => trivial
        | some no => exact .inl (by simp [Form.children])
    | whileLoop label cond body =>
      dsimp only
      unfold Move.ofWhile
      split
      · exact .inl (by simp [Form.children])
      · trivial
      · exact .inl (by simp [Form.children])
    | doWhile label body cond =>
      dsimp only
      unfold Move.ofDoWhile
      split
      · trivial
      · exact .inl (by simp [Form.children])
      · exact .inl (by simp [Form.children])
    | forLoop label init cond next body => exact .ofFor label init cond next body
    | switch label value cases_ body => exact .ofSwitch label value cases_ body
    | ret value =>
      cases value with
      | none => trivial
      | some value => exact .inl List.mem_cons_self
    | tryCatch body cs => exact .ofTry body cs
    | throw value => exact .inl List.mem_cons_self
    | load place => exact .collect (List.Subset.refl _)
    | store place op operandTy value =>
      dsimp only
      unfold Move.ofStore
      split
      · exact .collect (List.subset_append_left _ _)
      · exact .inl (List.mem_append_right _ List.mem_cons_self)
    | step place up before => exact .collect (List.Subset.refl _)
    | binary op operandTy left right =>
      dsimp only
      unfold Move.ofBinary
      split <;> exact .inl (by simp [Form.children])
    | logical isAnd left right =>
      dsimp only
      unfold Move.ofLogical
      split <;> exact .inl (by simp [Form.children])
    | unary op operand => exact .inl List.mem_cons_self
    | ternary cond yes no =>
      dsimp only
      unfold Move.ofTernary
      split <;> exact .inl (by simp [Form.children])
    | convert target operand => exact .inl List.mem_cons_self
    | call callee args ret => exact .ofCall callee args ret
    | list ty elements => exact .collect (List.Subset.refl _)
    | _ => trivial

namespace Discipline

/-- Whatever is admitted may be converted, and arrays may be of any length. -/
structure Permits (A : Discipline) : Prop where
  converts : ∀ ty v, A.Converts ty v
  roomy : ∀ n, A.Roomy n

variable {A : Discipline} {p : Program} {P : Instr → Prop}

theorem Permits.allows (permits : A.Permits) (i : Instr) (f : Frame Variable) (o : Except Interrupt Variable)
    (m : Machine) : A.Allows i f o m := by
  unfold Allows
  split
  · exact fun _ => permits.converts ..
  · intro _ storage m' target _ _
    split
    · exact permits.converts ..
    · exact fun _ _ => permits.converts ..
  · exact permits.converts ..
  · exact fun _ => permits.converts ..
  · trivial

theorem of_run {i c : Instr} {f : Frame Variable} {follow : Except Interrupt Variable → Exec (Option Variable)}
    (part : ∀ i c, P i → c ∈ i.children → P c) (bodies : ∀ g ∈ p.functions, P g.body) (hi : P i)
    (move : i.move p f = .run c follow) : P c := by
  have inside := i.move_inside p f
  rw [move] at inside
  rcases inside with hc | ⟨g, hg, rfl⟩
  · exact part i c hi hc
  · exact bodies g hg

theorem Guides.of_permits (permits : A.Permits) (literal : ∀ i, P i → ∀ h v, i.form = .literal v → A.Admits h v)
    (part : ∀ i c, P i → c ∈ i.children → P c) (bodies : ∀ g ∈ p.functions, P g.body)
    (serves : ∀ f ∈ p.env.natives.natives, ∀ m phase ret, A.Holds m → A.Serves m.heap ret (m.reply f phase)) :
    A.Guides p (fun _ i _ => P i) fun _ i _ => P i where
  literal hi := literal _ hi
  enter hi _ := hi
  next hi _ := hi
  part hi move := of_run part bodies hi move
  literal' hi := literal _ hi
  allows _ _ _ _ := permits.allows ..
  fills _ _ _ _ _ := permits.roomy _
  enters _ _ _ _ _ := permits.converts ..
  invokes {_ i m id f ret} _ hm move := by
    have inside := i.move_inside p m.own
    rw [move] at inside
    exact serves f (List.mem_of_getElem? inside) m _ ret hm

theorem Guides.of_handles {depth : Nat} {root : Instr} {m₀ : Machine} (permits : A.Permits)
    (literal : ∀ i, P i → ∀ h v, i.form = .literal v → A.Admits h v) (part : ∀ i c, P i → c ∈ i.children → P c)
    (bodies : ∀ g ∈ p.functions, P g.body)
    (serves : ∀ i m id f ret, Handles p depth root m₀ i m → i.move p m.own = .invoke id f ret → A.Holds m →
      A.Serves m.heap ret (m.reply f (Exec.callPhase m.own.state m.stop))) :
    A.Guides p (fun room i m => P i ∧ Visits p depth root m₀ room i m) fun room i m => P i ∧ ∃ n inside,
      Visits p depth root m₀ (room + 1) i n ∧ n.enter? i.id = some inside ∧ Passes p room i inside m where
  literal h := literal _ h.1
  enter h entered := ⟨h.1, _, _, h.2, entered, .here⟩
  next := by
    rintro room i m m' ⟨hi, n, inside, visits, entered, passes⟩ turned
    exact ⟨hi, n, inside, visits, entered, passes.trans (.next (Turn.executes_iff.1 turned) .here)⟩
  part := by
    rintro room i m c follow ⟨hi, n, inside, visits, entered, passes⟩ move
    exact ⟨of_run part bodies hi move, .part visits entered passes move⟩
  literal' h := literal _ h.1
  allows _ _ _ _ := permits.allows ..
  fills _ _ _ _ _ := permits.roomy _
  enters _ _ _ _ _ := permits.converts ..
  invokes := by
    rintro room i m id f ret ⟨_, n, inside, visits, entered, passes⟩ hm move
    exact serves i m id f ret (.turn visits entered passes) move hm

end Discipline
end Tickwise
