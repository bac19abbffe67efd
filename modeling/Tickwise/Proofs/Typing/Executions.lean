import Tickwise.Proofs.Machine.Adequacy
import Tickwise.Proofs.Machine.InFlight
import Tickwise.Proofs.Typing.Moves
set_option autoImplicit false

/-!
# Sound executions

If natives keep to the types of their signatures, then so does every instruction of a typed program:
each turn of it is sound, so all its turns are, and by induction on the depth every execution.
-/
namespace Tickwise

open Exec

/-- The frames, outermost first, have operands that the instructions they belong to can go on with. -/
abbrev MarkedShapes.Resumes (S : MarkedShapes) (p : Program) : Instr → List (Frame Variable) → Prop :=
  Along p fun i f => f.Sound S i.form

theorem Shapes.Takes.of_fits {S : Shapes} {param : ParamType} {ty : Ty} {v : Value Ref}
    (hv : S.Has ty v) (fits : param.Fits ty) : S.Takes param v := by
  cases param with
  | exact dst => exact hv.fits fits
  | anyArray =>
    rcases fits with rfl | ⟨elem, rfl⟩
    · exact ⟨.int, .inl hv⟩
    · exact ⟨elem, hv⟩
  | any => exact ⟨ty, fits, hv⟩

theorem Frame.sound_ofCall (S : MarkedShapes) (form : Form Instr) (node : NodeId) (params : List Variable) :
    (Frame.ofCall node params).Sound S form := by
  have fresh := Frame.sound_start S form node
  have collects {es : List Instr} (h : (Frame.start node).Collects S es) :
      (Frame.ofCall node params).Collects S es := ⟨h.values, h.index, h.all⟩
  unfold Frame.Sound at fresh ⊢
  split
  · exact collects fresh
  · exact collects fresh
  · exact fun hs => collects (fresh hs)
  · trivial

theorem hasLocal_of_bindParams {D : Declarations} {S : MarkedShapes} {h : Heap} {params : List Parameter}
    {args locals : List Variable} (declared : ∀ q ∈ params, D.var? q.var = some q.ty)
    (has : List.Forall₂ (fun q v => S.Has q.ty v.value) params args)
    (bound : bindParams h params args = .ok locals) : ∀ v ∈ locals, S.HasLocal D v := by
  induction has generalizing locals with
  | nil =>
    cases bound
    nofun
  | @cons q v params args has _ ih =>
    obtain ⟨w, assigned, bound⟩ := ok_of_bind_except bound
    obtain ⟨ws, rest, bound⟩ := ok_of_bind_except bound
    cases bound
    obtain ⟨temp, id⟩ := MarkedShapes.hasTemp_of_assign (S.marking.refl q.ty) has.offers assigned
    have first : S.HasLocal D w := by
      refine ⟨q.ty, ?_, temp.slot⟩
      rw [id]
      exact declared q List.mem_cons_self
    exact List.forall_mem_cons.2 ⟨first, ih (fun q hq => declared q (List.mem_cons_of_mem _ hq)) rest⟩

theorem Frame.Collects.forall₂ {α : Type} {S : MarkedShapes} {es : List Instr} {f : Frame Variable}
    {fits : α → Ty → Prop} {P : α → Variable → Prop} {params : List α} (h : f.Collects S es)
    (behind : f.state ≠ 0) (takes : Declarations.Takes fits params es)
    (hP : ∀ param e v, fits param (Instr.ty e) → S.HasTemp e.ty v → P param v) :
    List.Forall₂ P params f.operands := by
  obtain ⟨length, each⟩ := takes
  rw [List.forall₂_iff_get]
  refine ⟨length.symm.trans (h.all behind).symm, fun k hk hk' => ?_⟩
  obtain ⟨e, he, temp⟩ := h.values k _ (List.getElem?_eq_getElem hk')
  exact hP _ e _ (each k _ e (List.getElem?_eq_getElem hk) he) temp

/-- What a turn of an instruction answers: a value of its type, or none and frames to go on with. -/
def Instr.Leads (p : Program) (i : Instr) (S : MarkedShapes) (m : Machine) : Option Variable → Prop
  | some v => S.HasTemp i.ty v
  | none => S.Resumes p i (m.own :: m.deeper)

def Instr.Waits (p : Program) (i : Instr) (S : MarkedShapes) (m : Machine) : Prop :=
  S.Resumes p i (m.own :: m.deeper)

/-- A typed machine, about to execute a typed instruction of a function with result type `ret`. -/
structure Machine.Before (p : Program) (D : Declarations) (ret : Ty) (i : Instr) (S : MarkedShapes)
    (m : Machine) : Prop where
  instr : i.Typed D ret
  typed : m.Typed D S
  fits : Fits p i m.deeper
  resumes : S.Resumes p i m.deeper

structure Machine.Amid (p : Program) (D : Declarations) (ret : Ty) (i : Instr) (S : MarkedShapes)
    (m : Machine) : Prop where
  instr : i.Typed D ret
  typed : m.Typed D S
  framed : m.frames ≠ []
  fits : Fits p i (m.own :: m.deeper)
  resumes : S.Resumes p i (m.own :: m.deeper)

/-- The program is typed, and its natives keep to their types and to the marking of slots. -/
structure Program.Keeps (p : Program) (D : Declarations) (M : Marking) : Prop where
  typed : p.Typed D
  natives : ∀ {id f}, D.native? id = some f → f.KeepsTypesAs M D.class?

theorem Program.Keeps.mono {p : Program} {D : Declarations} {S S' : MarkedShapes} (hS : S.Le S')
    (hp : p.Keeps D S.marking) : p.Keeps D S'.marking := hS.marking ▸ hp

theorem Program.keeps_ofTokens {p : Program} {id : String} {env : Environment} {tokens : List Token} {M : Marking}
    (compiled : Program.ofTokens id env tokens = .ok p)
    (natives : ∀ f ∈ p.env.natives.natives, f.KeepsTypesAs M p.class?) : ∃ D, p.Keeps D M := by
  obtain ⟨D, typed⟩ := typed_ofTokens compiled
  have classes : D.class? = p.class? := (funext typed.classes).symm
  refine ⟨D, typed, fun {native f} known => ?_⟩
  rw [classes]
  rw [← typed.natives] at known
  exact natives f (List.mem_of_getElem? known)

structure Deeper (p : Program) (D : Declarations) (run : Instr → Machine → Result Variable → Prop) :
    Prop where
  around : ∀ c m r, run c m r → m.Around r.2
  leaves : ∀ c m r, run c m r → Fits p c m.deeper → Leaves p c m r
  sound : ∀ {c ret S m r}, p.Keeps D S.marking → m.Before p D ret c S → run c m r →
    Sound D ret (fun S' _ v => S'.HasTemp c.ty v) (fun S' m' => S'.Resumes p c m'.deeper) S r

variable {p : Program} {D : Declarations} {run : Instr → Machine → Result Variable → Prop} {room : Nat}
  {i : Instr} {ret : Ty} {S : MarkedShapes} {m : Machine}

theorem Sound.callNative {id : NativeId} {f : NativeFn} {span : Span} {L : MarkedShapes → Machine → Prop}
    (native : D.native? id = some f) (keeps : f.KeepsTypesAs S.marking D.class?) (hm : m.Typed D S)
    (args : List.Forall₂ (fun param v => S.Takes param v.value) f.params m.own.operands)
    (left : ∀ S' (r : NativeReply) phase, S.Le S' →
      L S' ((m.record id phase r).modifyFrame ({ · with
        state := 2, index := (m.record id phase r).own.index }))) :
    Sound D ret (fun S' _ v => S'.HasTemp f.ret v) L S (callNative span id f f.ret m) := by
  rw [callNative_apply]
  dsimp only
  generalize callPhase m.own.state m.stop = phase
  obtain ⟨S', le, described, done⟩ :=
    keeps S ⟨m.own.operands, phase, Int32.ofInt m.own.index, m.heap, m.journal⟩ rfl hm.classes hm.heap
      args
  have crashes : ∀ crash, (m.reply f phase).outcome = .crashed crash → D.Crashes := fun crash ends =>
    ⟨id, f, native, fun returns => returns _ _ hm.classes hm.heap.toShapes args crash ends⟩
  change S'.Describes (m.reply f phase).heap at described
  change ∀ v, (m.reply f phase).outcome = .done v → S'.Has f.ret v.value at done
  generalize m.reply f phase = r at described done crashes
  have moved := hm.modifyFrame (g := ({ · with index := r.state.toInt }))
    fun _ own => ⟨own.locals, own.operands⟩
  have typed : (m.record id phase r).Typed D S' := by
    obtain ⟨classes, heap, frames, deeper⟩ := moved.withHeap le described
    exact ⟨classes, heap, frames, deeper⟩
  apply Sound.rebase le
  split
  · exact .faultAt typed _ _
  · cases ho : r.outcome with
    | done v =>
      unfold Exec.answered
      dsimp only
      rw [← bind_pure (Exec.convert span v f.ret)]
      refine Sound.convert typed (done v ho) (done v ho).offers ?_
      intro w converted
      exact .pure typed converted
    | suspend =>
      refine ⟨S', .refl S', typed.modifyFrame fun _ own => ⟨own.locals, own.operands⟩, ?_⟩
      exact left S' r phase le
    | fault code => exact .faultAt typed _ _
    | crashed c => exact .throw typed (crashes c ho)

theorem Instr.Proceeds.turn {r : Result (Option Variable)} (h : i.Proceeds D ret S r)
    (rest : r.1 = .ok none → r.2.deeper = []) : Sound D ret (i.Leads p) (i.Waits p) S r := by
  obtain ⟨S', le, typed, ends⟩ := h
  refine ⟨S', le, typed, ?_⟩
  obtain ⟨_ | _ | v, m'⟩ := r
  case ok.none =>
    have deeper : m'.deeper = [] := rest rfl
    change S'.Resumes p i (m'.own :: m'.deeper)
    rw [deeper]
    exact .single ends
  case ok.some => exact ends
  case error e =>
    cases e with
    | suspended => exact False.elim ends
    | _ => exact ends

theorem Sound.enterCallee {g : Function} {span : Span} {args : List Instr} {function : FunctionId}
    (hp : p.Typed D) (found : p.function? function = some g) (hm : m.Typed D S) (framed : m.frames ≠ [])
    (hd : m.deeper = []) (form : i.form = .call (.user function) args g.ret)
    (has : List.Forall₂ (fun q v => S.Has q.ty v.value) g.params m.own.operands) :
    Sound D ret (i.Leads p) (i.Waits p) S (goOn (enterCallee span g room) m) := by
  have typed := hm.modifyFrame (g := ({ · with operands := [] })) fun _ own => ⟨own.locals, nofun⟩
  have deeper := m.deeper_modifyFrame ({ · with operands := [] })
  have heap := m.heap_modifyFrame ({ · with operands := [] })
  have framed' : (m.modifyFrame ({ · with operands := [] })).frames ≠ [] := by
    obtain ⟨_ | _, _⟩ := m
    · exact absurd rfl framed
    · exact List.cons_ne_nil _ _
  change Sound D ret (i.Leads p) (i.Waits p) S (goOn (do
    let params ← Exec.checkCrash span (bindCrash? · g.params m.own.operands) (bindParams · g.params m.own.operands)
    if room = 0 then Exec.faultAt span .stackOverflow
    else
      placeCallee span g.body.id params
      setPosition 2 0) (m.modifyFrame ({ · with operands := [] })))
  generalize m.modifyFrame ({ · with operands := [] }) = n at typed deeper heap framed' ⊢
  unfold goOn
  rw [bind_assoc]
  apply Sound.checkCrash typed (typed.heap.bindCrash?_eq_none has)
  intro params bound
  split
  · exact .faultAt typed _ _
  · have locals := hasLocal_of_bindParams (hp.functions g (List.mem_of_getElem? found)).params has bound
    obtain ⟨n', placed, typed', framed'', deeper'⟩ : ∃ n', placeCallee span g.body.id params n = (.ok (), n') ∧
        n'.Typed D S ∧ n'.frames ≠ [] ∧ n'.deeper = [Frame.ofCall g.body.id params] := by
      refine ⟨{ n with deeper := [Frame.ofCall g.body.id params] }, ?_, ?_, framed', rfl⟩
      · unfold placeCallee Machine.placeCallee?
        rw [deeper, hd]
      · exact ⟨typed.classes, typed.heap, typed.frames, .cons ⟨locals, nofun⟩ nofun⟩
    rw [bind_assoc, bind_apply, placed]
    refine ⟨S, .refl S, typed'.modifyFrame (g := ({ · with state := 2, index := 0 }))
      fun _ own => ⟨own.locals, own.operands⟩, ?_⟩
    change S.Resumes p i ((n'.modifyFrame ({ · with state := 2, index := 0 })).own ::
      (n'.modifyFrame ({ · with state := 2, index := 0 })).deeper)
    rw [Machine.deeper_modifyFrame, Machine.own_modifyFrame framed'', deeper']
    refine ⟨?_, ?_⟩
    · change Frame.Sound S i.form _
      rw [form]
      exact fun behind => absurd rfl behind
    · have waits : i.waiting 2 0 = .callee function := by
        unfold Instr.waiting
        rw [form]
        rfl
      rw [waits]
      intro g' _
      exact .single (Frame.sound_ofCall ..)

theorem Machine.Amid.enters {f : Function} (amid : m.Amid p D ret i S) (hp : p.Typed D)
    (move : i.move p m.own = .enter f) :
    ∃ id args, i.form = .call (.user id) args f.ret ∧ p.function? id = some f ∧
      List.Forall₂ (fun q v => S.Has q.ty v.value) f.params m.own.operands := by
  obtain ⟨hi, _, _, fits, resumes⟩ := amid
  have sound := Instr.move_sound hp hi resumes.1 fits.2.2.1
  rw [move] at sound
  obtain ⟨id, args, ty, form, found, one⟩ := sound
  have checks := hi.checks
  have operands := resumes.1
  rw [form] at checks operands
  have collects : m.own.Collects S args := operands (by rw [one]; decide)
  obtain ⟨params, known, takes⟩ := checks
  have signature := hp.signatures found
  rw [known] at signature
  obtain ⟨rfl, rfl⟩ := Prod.mk.inj (Option.some.inj signature)
  refine ⟨id, args, form, found, ?_⟩
  have has : List.Forall₂ (fun ty v => S.Has ty v.value) (f.params.map Parameter.ty) m.own.operands :=
    collects.forall₂ (by rw [one]; decide) takes fun _ _ _ fits temp => temp.2.fits fits
  exact List.forall₂_map_left_iff.1 has

theorem Machine.Amid.invokes {id : NativeId} {f : NativeFn} {ty : Ty} (amid : m.Amid p D ret i S) (hp : p.Typed D)
    (move : i.move p m.own = .invoke id f ty) :
    ∃ args, i.form = .call (.native id) args ty ∧ f.ret = ty ∧ D.native? id = some f ∧ m.own.state ≠ 0 ∧
      m.own.Collects S args ∧ List.Forall₂ (fun param v => S.Takes param v.value) f.params m.own.operands := by
  obtain ⟨hi, _, _, fits, resumes⟩ := amid
  have sound := Instr.move_sound hp hi resumes.1 fits.2.2.1
  rw [move] at sound
  obtain ⟨native, args, form, behind⟩ := sound
  have checks := hi.checks
  have collects := resumes.1
  rw [form] at checks collects
  obtain ⟨f', native', same, takes⟩ := checks
  cases native.symm.trans native'
  refine ⟨args, form, same, native, behind, collects, ?_⟩
  exact collects.forall₂ behind takes fun _ _ _ fits temp => Shapes.Takes.of_fits temp.2 fits

theorem Machine.Amid.sound_enter {f : Function} (amid : m.Amid p D ret i S) (hp : p.Typed D)
    (move : i.move p m.own = .enter f) :
    Sound D ret (i.Leads p) (i.Waits p) S (goOn (enterCallee i.span f room) m) := by
  obtain ⟨id, args, form, found, has⟩ := amid.enters hp move
  obtain ⟨_, hm, framed, fits, _⟩ := amid
  obtain ⟨waits, _⟩ := fits.agrees move nofun
  have hd : m.deeper = [] := fits.eq_nil_of_atRest (by rw [waits]; trivial)
  exact Sound.enterCallee hp found hm framed hd form has

theorem Machine.Amid.sound_invoke {id : NativeId} {f : NativeFn} {ty : Ty} (amid : m.Amid p D ret i S)
    (hp : p.Keeps D S.marking) (move : i.move p m.own = .invoke id f ty) :
    Sound D ret (i.Leads p) (i.Waits p) S (finish (callNative i.span id f ty) m) := by
  obtain ⟨args, form, rfl, native, behind, collects, takes⟩ := amid.invokes hp.typed move
  obtain ⟨_, hm, framed, fits, _⟩ := amid
  obtain ⟨waits, _⟩ := fits.agrees move nofun
  have hd : m.deeper = [] := fits.eq_nil_of_atRest (by rw [waits]; trivial)
  have ty : i.ty = f.ret := by
    obtain ⟨_, _, _⟩ := i
    cases form
    rfl
  refine Sound.finish (Sound.callNative native (hp.natives native) hm takes ?_) fun S' m' v hv => by
    change S'.HasTemp i.ty v
    rw [ty]
    exact hv
  intro S' r phase le
  obtain ⟨_ | ⟨own, frames⟩, rest, heap, journal, budget, taken, stop⟩ := m
  · exact absurd rfl framed
  · subst hd
    have collects := collects.mono le
    change S'.Resumes p i [_]
    refine .single ?_
    rw [form]
    exact ⟨collects.values, (fun h => by cases h), fun _ => collects.all behind⟩

theorem Turn.sound {r : Result (Option Variable)} (hp : p.Keeps D S.marking) (deeper : Deeper p D run)
    (amid : m.Amid p D ret i S) (h : Turn run p room i m r) :
    Sound D ret (i.Leads p) (i.Waits p) S r := by
  obtain ⟨hi, hm, framed, fits, resumes⟩ := id amid
  have plain := i.move_isPlain p m.own
  have sound := Instr.move_sound hp.typed hi resumes.1 fits.2.2.1
  have here : m.Continues D S m.own := ⟨hm, framed, rfl⟩
  cases h with
  | @child c follow o m' move inner =>
    have agrees := fits.agrees move nofun
    rw [move] at plain sound
    obtain ⟨ret', hc, sound⟩ := sound
    have around := deeper.around _ _ _ inner
    obtain ⟨S', le, typed, ends⟩ :=
      deeper.sound hp ⟨hc, hm, fits.inner agrees, resumes.inner agrees⟩ inner
    by_cases ho : o = .error .suspended
    · subst ho
      rw [plain.1]
      have same := around.own
      rw [← i.waiting_congr same] at agrees
      exact ⟨S', le, typed, .outer ((resumes.1.congr same.symm).mono le) agrees ends⟩
    · have there : m'.Continues D S' m.own := ⟨typed, around.frames_ne_nil framed, around.own⟩
      have ended : Ended D S' ret' c.ty o := by
        cases o with
        | ok v => exact ends
        | error e =>
          refine ⟨?_, fun he => ho (by rw [he])⟩
          cases e with
          | suspended => trivial
          | _ => exact ends
      have left := deeper.leaves _ _ _ inner (fits.inner agrees)
      refine ((sound S' m' o le there ended).turn fun _ => ?_).rebase le
      exact (plain.2 o ho fun _ _ _ _ => trivial).deeper_eq_nil (left.clears ho)
  | pass move =>
    have agrees := fits.agrees move nofun
    rw [move] at sound
    have hd : m.deeper = [] := fits.eq_nil_of_atRest (by rw [agrees]; trivial)
    rw [pass_apply]
    split
    · exact ⟨S, .refl S, hm, trivial⟩
    · split
      · exact ⟨S, .refl S, hm, resumes⟩
      · have typed : Machine.Typed D S { m with budget := m.budget - 1, taken := m.taken + 1 } :=
          ⟨hm.classes, hm.heap, hm.frames, hm.deeper⟩
        have proceeds : i.Proceeds D ret S _ := .setPosition ⟨typed, framed, rfl⟩ sound
        exact proceeds.turn fun _ => (Machine.deeper_modifyFrame _ _).trans hd
  | enter move => exact amid.sound_enter hp.typed move
  | invoke move => exact amid.sound_invoke hp move
  | @act action move =>
    rw [move] at plain sound
    by_cases opened : (i.form.isScope && !m.own.scope) = true
    · cases move.symm.trans (Instr.move_openScope opened)
      have free := Form.isFree_of_isScope (Bool.and_eq_true_iff.1 opened).1
      refine ⟨S, .refl S, hm.modifyFrame fun _ own => ⟨own.locals, own.operands⟩, ?_⟩
      obtain ⟨_ | _, _⟩ := m
      · exact absurd rfl framed
      · exact ⟨free .., resumes.2⟩
    · have agrees := i.move_agrees p fits.2.2.1 (Bool.eq_false_iff.2 opened)
      rw [move] at agrees
      refine (sound m here).turn fun more => ?_
      rcases agrees with atRest | never
      · exact Plain.deeper_eq_nil plain (fits.eq_nil_of_atRest atRest)
      · have same : action m = (.ok none, (action m).2) := Prod.ext more rfl
        exact absurd same (never m _)

theorem Turn.amid {m' : Machine} (hp : p.Keeps D S.marking) (deeper : Deeper p D run) (amid : m.Amid p D ret i S)
    (h : Turn run p room i m (.ok none, m')) : ∃ S', S.Le S' ∧ m'.Amid p D ret i S' := by
  obtain ⟨S', le, typed, resumes⟩ := h.sound hp deeper amid
  have framed := ((h.inside deeper.around).own_kind amid.framed).1
  have fits := h.fits deeper.around deeper.leaves amid.framed amid.fits
  exact ⟨S', le, amid.instr, typed, framed, fits, resumes⟩

theorem Turns.sound {r : Result Variable} (hp : p.Keeps D S.marking) (deeper : Deeper p D run)
    (amid : m.Amid p D ret i S) (h : Turns run p room i m r) :
    Sound D ret (fun S' _ v => S'.HasTemp i.ty v) (i.Waits p) S r := by
  induction h generalizing S with
  | done last => exact last.sound hp deeper amid
  | left last => exact last.sound hp deeper amid
  | next first _ ih =>
    obtain ⟨S', le, amid'⟩ := first.amid hp deeper amid
    exact (ih (hp.mono le) amid').rebase le

theorem Machine.Before.enter {inside : Machine} (h : m.Before p D ret i S)
    (entered : m.enter? i.id = some inside) : inside.Amid p D ret i S := by
  obtain ⟨hi, hm, fits, resumes⟩ := h
  obtain ⟨framed, fits, _⟩ := fits.enter entered
  rcases Machine.enter?_cases entered with rfl | ⟨f, rest, hd, _, _, rfl⟩
  · have typed : Machine.Typed D S { m with frames := Frame.start i.id :: m.frames, deeper := [] } :=
      ⟨hm.classes, hm.heap, .cons ⟨nofun, nofun⟩ hm.frames, nofun⟩
    exact ⟨hi, typed, framed, fits, .single (Frame.sound_start ..)⟩
  · have deeper := hm.deeper
    rw [hd] at resumes deeper
    have own : S.HasFrame D f := deeper f List.mem_cons_self
    have beneath : S.HasFrames D rest := deeper.sub fun _ => List.mem_cons_of_mem _
    exact ⟨hi, ⟨hm.classes, hm.heap, .cons own hm.frames, beneath⟩, framed, fits, resumes⟩

theorem Sound.leaveFrame {r : Result Variable}
    (h : Sound D ret (fun S' _ v => S'.HasTemp i.ty v) (i.Waits p) S r) :
    Sound D ret (fun S' _ v => S'.HasTemp i.ty v) (fun S' m' => S'.Resumes p i m'.deeper) S
      (leaveFrame r) := by
  obtain ⟨S', le, typed, ends⟩ := h
  obtain ⟨o, m'⟩ := r
  have outer : S'.HasFrames D m'.frames.tail := typed.frames.sub fun _ => List.mem_of_mem_tail
  by_cases ho : o = .error .suspended
  · subst ho
    exact ⟨S', le, ⟨typed.classes, typed.heap, outer, .cons typed.own typed.deeper⟩, ends⟩
  · rw [leaveFrame_of_running ho]
    refine ⟨S', le, ⟨typed.classes, typed.heap, outer, nofun⟩, ?_⟩
    cases o with
    | ok v => exact ends
    | error e =>
      cases e with
      | suspended => exact absurd rfl ho
      | _ => exact ends

theorem Sound.settle {c : Exec Variable} {L : MarkedShapes → Machine → Prop}
    (h : Sound D ret (fun S' _ v => S'.HasTemp i.ty v) (fun _ _ => False) S (c m)) :
    Sound D ret (fun S' _ v => S'.HasTemp i.ty v) L S (settle c m) := by
  obtain ⟨S', le, typed, ends⟩ := h
  have running : (c m).1 ≠ .error .suspended := by
    intro suspended
    rw [suspended] at ends
    exact ends
  rw [settle_of_running running]
  refine ⟨S', le, ⟨typed.classes, typed.heap, typed.frames, nofun⟩, ?_⟩
  generalize (c m).1 = o at ends running
  cases o with
  | ok v => exact ends
  | error e =>
    cases e with
    | suspended => exact absurd rfl running
    | _ => exact ends

theorem Executes.sound {r : Result Variable} (hp : p.Keeps D S.marking) (before : m.Before p D ret i S)
    (h : Executes p room i m r) :
    Sound D ret (fun S' _ v => S'.HasTemp i.ty v) (fun S' m' => S'.Resumes p i m'.deeper) S r := by
  refine h.induction (Q := fun _ i m r => ∀ {ret S}, p.Keeps D S.marking → m.Before p D ret i S →
    Sound D ret (fun S' _ v => S'.HasTemp i.ty v) (fun S' m' => S'.Resumes p i m'.deeper) S r)
    (fun m hl _ _ _ before => ?_) (fun m fault _ _ _ before => ?_)
    (fun {room i m inside left} _ entered deeper turns ret S hp before => ?_) hp before
  · exact .settle (.leaf before.instr hl before.typed)
  · exact .settle (.faultAt before.typed _ _)
  · have below : Deeper p D (Executes p room) :=
      ⟨fun _ _ _ hr => hr.around, fun _ _ _ hr fits => hr.leaves fits,
        fun hp before hr => deeper _ _ _ hr hp before⟩
    exact (turns.sound hp below (before.enter entered)).leaveFrame

theorem Program.deeper (p : Program) (D : Declarations) (room : Nat) :
    Deeper p D fun c m r => exec p room c m = r where
  around _ _ _ hr := (executes_iff.2 hr).around
  leaves _ _ _ hr fits := (executes_iff.2 hr).leaves fits
  sound hp before hr := (executes_iff.2 hr).sound hp before

end Tickwise
