import Tickwise.Compile.Unit
import Tickwise.Proofs.Compile.Comparison
import Tickwise.Proofs.Compile.Emission
import Tickwise.Proofs.Execution.Backing
import Tickwise.Proofs.Storage.Arrays
set_option autoImplicit false

/-!
# Stores beyond the end of an array

A store to a position beyond the end lengthens the array. What was in it is kept, and all elements between are one
slot: where they hold arrays, they share one.
-/
namespace Tickwise

open Exec

namespace Heap

variable {h k : Heap} {r q : Ref} {elem : Ty} {filler u v w : Variable} {position j : Nat}

def lengthen (h : Heap) (r : Ref) (position : Nat) (elem : Ty) : Variable × Heap :=
  let made := buildArray elem [] h
  (made.1, made.2.extend r (position + 1) made.1)

/-- Storage lengthened up to and with a position: what was there is kept, and all new elements are one slot. It is
zero, or refers to an empty array that was made for it. -/
structure Lengthens (h : Heap) (r : Ref) (position : Nat) (elem : Ty) (filler : Variable) (k : Heap) : Prop where
  length : (k.elements r).size = position + 1
  kept : ∀ j < (h.elements r).size, (k.elements r)[j]? = (h.elements r)[j]?
  added : ∀ j, (h.elements r).size ≤ j → j ≤ position → (k.elements r)[j]? = some filler
  others : ∀ q < h.size, q ≠ r → k.elements q = h.elements q
  made : elem.element? = none ∧ filler = Slot.zeroed elem ∧ k.size = h.size ∨
    (∃ inner, elem = .array inner) ∧ filler = Slot.temp elem (.array h.size) ∧ k.size = h.size + 1 ∧
      k.elements h.size = #[]

theorem lengthens_lengthen (there : r < h.size) (beyond : (h.elements r).size ≤ position) :
    h.Lengthens r position elem (h.lengthen r position elem).1 (h.lengthen r position elem).2 := by
  obtain ⟨_, _, issues⟩ := builds_buildArray elem [] h
  have same := issues.grows.elements_eq r there
  have held := Nat.lt_of_lt_of_le there issues.grows.size_le
  have after (q : Ref) : (h.lengthen r position elem).2.elements q = if q = r then
      h.elements r ++ Array.replicate (position + 1 - (h.elements r).size) (h.lengthen r position elem).1
      else (buildArray elem [] h).2.elements q := by
    rw [← same]
    exact elements_extend held ..
  refine ⟨?_, fun j hj => ?_, fun j hn hj => ?_, fun q hq other => ?_, ?_⟩
  · rw [after, if_pos rfl, Array.size_append, Array.size_replicate]
    omega
  · rw [after, if_pos rfl, Array.getElem?_append_left hj]
  · rw [after, if_pos rfl, Array.getElem?_append_right hn, Array.getElem?_replicate, if_pos (by omega)]
  · rw [after, if_neg other, issues.grows.elements_eq q hq]
  · have size : (h.lengthen r position elem).2.size = (buildArray elem [] h).2.size := size_extend ..
    cases elem with
    | array inner =>
      refine .inr ⟨⟨inner, rfl⟩, rfl, size.trans (size_alloc h #[]), ?_⟩
      rw [after, if_neg (Nat.ne_of_gt there)]
      exact (elements_alloc h #[] h.size).trans (if_pos rfl)
    | _ => exact .inl ⟨rfl, rfl, size⟩

namespace Lengthens

variable (lengthens : h.Lengthens r position elem filler k)

include lengthens

theorem filler_ty : filler.ty = elem := by
  rcases lengthens.made with ⟨_, rfl, _⟩ | ⟨_, rfl, _⟩ <;> rfl

theorem filler_plain (flat : elem.element? = none) : filler.value.storage? = none := by
  rcases lengthens.made with ⟨_, rfl, _⟩ | ⟨⟨inner, rfl⟩, _⟩
  · cases elem <;> rfl
  · cases flat

theorem filler_new (refers : filler.value.storage? = some q) : q = h.size := by
  rcases lengthens.made with ⟨none, rfl, _⟩ | ⟨_, rfl, _⟩
  · cases elem <;> cases refers
  · cases refers
    rfl

end Lengthens

/-- Storage after a store beyond the end of an array: what was there is kept, the value is stored, and all elements
between are one slot. No other slot refers to what that one refers to. -/
structure Gained (h : Heap) (r : Ref) (position : Nat) (filler u : Variable) (k : Heap) : Prop where
  length : (k.elements r).size = position + 1
  kept : ∀ j < (h.elements r).size, (k.elements r)[j]? = (h.elements r)[j]?
  added : ∀ j, (h.elements r).size ≤ j → j < position → (k.elements r)[j]? = some filler
  stored : (k.elements r)[position]? = some u
  others : ∀ q < h.size, q ≠ r → k.elements q = h.elements q
  apart : ∀ c, filler.value.storage? = some c → ∀ q j w, (k.elements q)[j]? = some w → w.value.storage? = some c →
    q = r ∧ (h.elements r).size ≤ j ∧ j < position

def Alone (k : Heap) (r : Ref) (j : Nat) : Prop :=
  ∀ v c, (k.elements r)[j]? = some v → v.value.storage? = some c →
    ∀ q l w, (k.elements q)[l]? = some w → w.value.storage? = some c → q = r ∧ l = j

theorem Gained.alone (gained : h.Gained r position filler u k)
    (few : filler.value.storage? = none ∨ position ≤ (h.elements r).size + 1) (hn : (h.elements r).size ≤ j)
    (hj : j < position) : k.Alone r j := by
  intro v c there refers q l w held same
  cases (gained.added j hn hj).symm.trans there
  rcases few with none | few
  · cases none.symm.trans refers
  · obtain ⟨rfl, _, _⟩ := gained.apart c refers q l w held same
    exact ⟨rfl, by omega⟩

theorem Lengthens.gained (lengthens : h.Lengthens r position elem filler k) (closed : h.Closed) (hu : h.Backs u)
    (beyond : (h.elements r).size ≤ position) : h.Gained r position filler u (k.write r position u) := by
  have at_ (j : Nat) (different : j ≠ position) :
      ((k.write r position u).elements r)[j]? = (k.elements r)[j]? := by
    rw [elements_write, if_pos rfl, Array.getElem?_setIfInBounds_ne different.symm]
  have here : ((k.write r position u).elements r)[position]? = some u := by
    rw [elements_write, if_pos rfl, Array.getElem?_setIfInBounds_self_of_lt (lengthens.length ▸ Nat.lt_succ_self _)]
  have elsewhere (q : Ref) (other : q ≠ r) : (k.write r position u).elements q = k.elements q := by
    rw [elements_write, if_neg other]
  refine ⟨?_, fun j hj => ?_, fun j hn hj => ?_, here, fun q hq other => ?_, fun c refers q j w there held => ?_⟩
  · rw [elements_write, if_pos rfl, Array.size_setIfInBounds, lengthens.length]
  · rw [at_ j (by omega), lengthens.kept j hj]
  · rw [at_ j (Nat.ne_of_lt hj), lengthens.added j hn (Nat.le_of_lt hj)]
  · rw [elsewhere q other, lengthens.others q hq other]
  · cases lengthens.filler_new refers
    -- What was stored before refers only to what there was.
    have old (q : Ref) (j : Nat) (mem : (h.elements q)[j]? = some w) : False :=
      Nat.lt_irrefl _ (closed.backs (Array.mem_of_getElem? mem) _ held)
    by_cases same : q = r
    · subst same
      refine ⟨rfl, Nat.le_of_not_lt fun small => ?_, ?_⟩
      · rw [at_ j (by omega), lengthens.kept j small] at there
        exact old q j there
      · have bound := (Array.getElem?_eq_some_iff.1 there).1
        rw [elements_write, if_pos rfl, Array.size_setIfInBounds, lengthens.length] at bound
        refine Nat.lt_of_le_of_ne (Nat.le_of_lt_succ bound) ?_
        rintro rfl
        cases here.symm.trans there
        exact Nat.lt_irrefl _ (hu _ held)
    · rw [elsewhere q same] at there
      exfalso
      rcases Nat.lt_or_ge q h.size with small | large
      · rw [lengthens.others q small same] at there
        exact old q j there
      · have none : k.elements q = #[] := by
          rcases lengthens.made with ⟨_, _, size⟩ | ⟨_, _, size, empty⟩
          · exact elements_of_size_le (size ▸ large)
          · rcases Nat.eq_or_lt_of_le large with rfl | larger
            · exact empty
            · exact elements_of_size_le (size ▸ larger)
        rw [none] at there
        cases there

end Heap

variable {m : Machine} {span : Span} {place : Place Instr} {v : Variable} {r : Ref} {elem : Ty} {position : Nat}
  {storage target : Storage}

/-- From storage a path leads to other storage, through fields of objects and positions within arrays, with the
values of its index expressions. -/
inductive Machine.Leads {ι : Type} (m : Machine) : List (Access ι) → List Variable → Storage → Storage → Prop
  | here {storage : Storage} : Leads m [] [] storage storage
  | field {path : List (Access ι)} {vs : List Variable} {storage target : Storage} {v : Variable} {cls : String}
      {r : Ref} {position : Nat} (read : m.read? storage = some v) (object : v.value = .object cls r)
      (rest : Leads m path vs (.cell r position) target) : Leads m (.field position :: path) vs storage target
  | index {at_ : ι} {elem : Ty} {path : List (Access ι)} {vs : List Variable} {storage target : Storage}
      {v i : Variable} {r : Ref} {n : Int32} (read : m.read? storage = some v) (array : v.value = .array r)
      (number : i.toInt = .ok n) (nonneg : ¬ n < 0) (within : n.toInt.toNat < (m.heap.elements r).size)
      (rest : Leads m path vs (.cell r n.toInt.toNat) target) : Leads m (.index at_ elem :: path) (i :: vs) storage target

/-- A place ends in a position of an array of elements of a type, with the index values among the operands. -/
def Machine.Ends (m : Machine) (place : Place Instr) (r : Ref) (elem : Ty) (position : Nat) : Prop :=
  ∃ path at_ vs i more storage v n, place.path = path ++ [.index at_ elem] ∧ m.own.operands = vs ++ i :: more ∧
    m.Leads path vs (.var place.root) storage ∧ m.read? storage = some v ∧ v.value = .array r ∧
    i.toInt = .ok n ∧ ¬ n < 0 ∧ n.toInt.toNat = position

namespace Exec

variable {α : Type}

theorem read_of_some (read : m.read? storage = some v) : Exec.read span storage m = (.ok v, m) := by
  rw [read_apply, read]
  rfl

theorem toArray_of_array (array : v.value = .array r) : v.toArray = .ok r := by
  unfold Slot.toArray
  rw [array]

theorem element_of_lt {i : Int32} (grow : Bool) (array : v.value = .array r) (nonneg : ¬ i < 0)
    (within : i.toInt.toNat < (m.heap.elements r).size) :
    element span v i elem grow m = (.ok (.cell r i.toInt.toNat), m) := by
  unfold element
  rw [toArray_of_array array]
  simp only [check, pure_bind, if_neg nonneg]
  rw [bind_apply]
  change (if i.toInt.toNat < (m.heap.elements r).size then _ else _ : Exec Storage) m = _
  rw [if_pos within]
  rfl

theorem element_of_le {i : Int32} (array : v.value = .array r) (nonneg : ¬ i < 0)
    (beyond : (m.heap.elements r).size ≤ i.toInt.toNat) (small : i.toInt.toNat < maxElements) :
    element span v i elem true m =
      (.ok (.cell r i.toInt.toNat), { m with heap := (m.heap.lengthen r i.toInt.toNat elem).2 }) := by
  unfold element
  rw [toArray_of_array array]
  simp only [check, pure_bind, if_neg nonneg]
  rw [bind_apply]
  change (if i.toInt.toNat < (m.heap.elements r).size then _ else _ : Exec Storage) m = _
  rw [if_neg (Nat.not_lt.2 beyond), if_true, bind_apply, extendArray_eq, if_neg (Nat.not_le.2 small),
    checkStorage_apply]
  rfl

theorem follow_of_leads {path rest : List (Access Instr)} {vs ws : List Variable} (grow : Bool)
    (leads : m.Leads path vs storage target) :
    follow span grow (path ++ rest) (vs ++ ws) storage m = follow span grow rest ws target m := by
  induction leads with
  | here => rfl
  | @field path vs storage target v cls r position read object _ ih =>
    have held : v.toObject = .ok (cls, r) := by
      unfold Slot.toObject
      rw [object]
    rw [List.cons_append, follow, bind_apply, read_of_some read]
    dsimp only
    rw [held]
    exact ih
  | @index at_ elem path vs storage target v i r n read array number nonneg within _ ih =>
    rw [List.cons_append, List.cons_append, follow, bind_apply, read_of_some read]
    dsimp only
    rw [List.head?_cons, Option.map_some, Option.getD_some, number]
    simp only [check, pure_bind]
    rw [bind_apply, element_of_lt _ array nonneg within]
    exact ih

theorem isSome_of_leads {path : List (Access Instr)} {vs : List Variable} {v : Variable}
    (leads : m.Leads path vs storage target) (read : m.read? target = some v) : ∃ w, m.read? storage = some w := by
  cases leads with
  | here => exact ⟨v, read⟩
  | field read => exact ⟨_, read⟩
  | index read => exact ⟨_, read⟩

theorem locate_of_ends (ends : m.Ends place r elem position) (beyond : (m.heap.elements r).size ≤ position)
    (small : position < maxElements) :
    locate span place true m = (.ok (.cell r position), { m with heap := (m.heap.lengthen r position elem).2 }) := by
  obtain ⟨path, at_, vs, i, more, storage, v, n, whole, operands, leads, read, array, number, nonneg, rfl⟩ := ends
  obtain ⟨w, root⟩ := isSome_of_leads leads read
  unfold locate
  rw [bind_apply, read_of_some root]
  dsimp only
  rw [bind_apply]
  change follow span true place.path m.own.operands (.var place.root) m = _
  rw [whole, operands, follow_of_leads true leads, follow, bind_apply, read_of_some read]
  dsimp only
  rw [List.head?_cons, Option.map_some, Option.getD_some, number]
  simp only [check, pure_bind]
  rw [bind_apply, List.isEmpty_nil, Bool.and_true, element_of_le array nonneg beyond small]
  rfl

theorem assign_of_ends {ty : Ty} (there : r < m.heap.size) (ends : m.Ends place r elem position)
    (beyond : (m.heap.elements r).size ≤ position) (small : position < maxElements) :
    assign span place none ty v m =
      match storeCrash? (.cell r position) elem v (m.heap.lengthen r position elem).2 with
      | some c => (.error (.crashed c), { m with heap := (m.heap.lengthen r position elem).2 })
      | none =>
        match (m.heap.lengthen r position elem).2.assign (m.heap.lengthen r position elem).1 v with
        | .ok u => (.ok u.toTemp, { m with heap := (m.heap.lengthen r position elem).2.write r position u })
        | .error fault => (.error (.fault ⟨fault, span⟩), { m with heap := (m.heap.lengthen r position elem).2 }) := by
  have lengthens : m.heap.Lengthens r position elem _ _ := Heap.lengthens_lengthen there beyond
  have filled := lengthens.added position beyond (Nat.le_refl _)
  generalize hk : (m.heap.lengthen r position elem).2 = k at filled ⊢
  have read : Machine.read? { m with heap := k } (.cell r position) = some (m.heap.lengthen r position elem).1 := filled
  unfold assign
  rw [bind_apply, Option.isNone_none, locate_of_ends ends beyond small, hk]
  dsimp only
  unfold store
  rw [bind_apply, read_of_some read]
  dsimp only
  rw [bind_apply, checkCrash_apply, lengthens.filler_ty]
  dsimp only
  cases storeCrash? (.cell r position) elem v k with
  | some c => rfl
  | none =>
    dsimp only
    rw [show checkHeap span (·.assign (m.heap.lengthen r position elem).1 v) { m with heap := k } =
      check span (k.assign (m.heap.lengthen r position elem).1 v) { m with heap := k } from rfl]
    cases k.assign (m.heap.lengthen r position elem).1 v <;> rfl

end Exec

theorem Exec.storeCrash?_of_fits {h : Heap} (storage : Storage) (fits : v.value.fits elem = true) :
    storeCrash? storage elem v h = none := by
  refine storeCrash?_of_scalar (fun isString => ?_) storage h
  subst isString
  cases hv : v.value <;> rw [hv] at fits <;> first | rfl | cases fits

theorem Heap.ok_of_fits {h : Heap} {dst : Variable} (init : v.isInit = true) (fits : v.value.fits dst.ty = true) :
    ∃ u, h.assign dst v = .ok u := by
  suffices converts : ∃ value, h.convertValue dst.ty v = .ok value by
    obtain ⟨value, converts⟩ := converts
    unfold Heap.assign
    rw [converts]
    exact ⟨_, rfl⟩
  obtain ⟨name, id, ty, value, label⟩ := v
  change (!value.isUnassigned) = true at init
  change value.fits dst.ty = true at fits
  generalize dst.ty = target at fits
  cases value with
  | unassigned => cases init
  | _ => cases target <;> first | exact ⟨_, rfl⟩ | cases fits

theorem Heap.storage_of_assign {h : Heap} {dst u : Variable} {c : Ref} (assigned : h.assign dst v = .ok u)
    (refers : u.value.storage? = some c) : v.value.storage? = some c := by
  obtain ⟨value, converted, rfl⟩ := MarkedShapes.ok_of_map assigned
  change value.storage? = some c at refers
  generalize dst.ty = target at converted
  cases target with
  | void =>
    cases converted
    cases refers
  | int | float | bool | string =>
    obtain ⟨_, _, rfl⟩ := MarkedShapes.ok_of_map converted
    cases refers
  | null | array _ | named _ =>
    dsimp only [Heap.convertValue] at converted
    split at converted
    case h_1 => cases converted
    case h_2 _ same | h_3 _ _ same =>
      cases converted
      rw [same]
      exact refers
    case h_4 =>
      cases converted
      cases refers

namespace Program

variable {p : Program} {x : Execution Variable} {s : Session} {room : Nat} {i : Instr} {m₀ : Machine}

/-- In a tick an assignment without an operator comes by turns to a machine on which it waits for its value, and the
value is there. -/
inductive Stores (p : Program) (x : Execution Variable) (s : Session) (room : Nat) (i : Instr) (place : Place Instr)
    (m₀ : Machine) (v : Variable) (m : Machine) : Prop
  | intro {before inside : Machine} {ty : Ty} {value : Instr} (visits : p.Visits x s (room + 1) i before)
      (entered : before.enter? i.id = some inside) (passes : Tickwise.Passes p room i inside m₀)
      (form : i.form = .store place none ty value) (behind : m₀.own.state ≠ 0)
      (ended : exec p room value m₀ = (.ok v, m))

namespace Stores

variable (stores : p.Stores x s room i place m₀ v m)

include stores

theorem move_eq : ∃ ty value, exec p room value m₀ = (.ok v, m) ∧
    i.move p m₀.own = .eval value fun v => Exec.finish (assign i.span place none ty v) := by
  obtain @⟨_, _, ty, value, _, _, _, form, behind, ended⟩ := stores
  refine ⟨ty, value, ended, ?_⟩
  unfold Instr.move
  rw [form]
  change Move.ofStore .. = _
  unfold Move.ofStore
  rw [if_neg behind]

theorem turn_eq : ∃ ty, turn (exec p room) p room i m₀ = Exec.finish (assign i.span place none ty v) m := by
  obtain ⟨ty, value, ended, move⟩ := stores.move_eq
  exact ⟨ty, by rw [turn_run move, ended]⟩

theorem visits : ∃ value, p.Visits x s room value m₀ ∧ exec p room value m₀ = (.ok v, m) := by
  obtain ⟨ty, value, ended, move⟩ := stores.move_eq
  obtain ⟨⟨f, y, prepared, visits⟩, entered, passes, _⟩ := stores
  exact ⟨value, ⟨f, y, prepared, .part visits entered passes move⟩, ended⟩

theorem handles : p.Handles x s i m := by
  obtain ⟨ty, value, ended, move⟩ := stores.move_eq
  obtain ⟨⟨f, y, prepared, visits⟩, entered, passes, _⟩ := stores
  exact ⟨f, y, prepared, .follow visits entered passes move ended⟩

end Stores

theorem reaches_of_leads {ι : Type} {A : Discipline} {path : List (Access ι)} {vs : List Variable} (holds : A.Holds m)
    (start : A.Reaches m.heap storage) (leads : m.Leads path vs storage target) : A.Reaches m.heap target := by
  induction leads with
  | here => exact start
  | field read object _ ih => exact ih ⟨_, start.read? holds read, by rw [object]; rfl⟩
  | index read array _ _ _ _ ih => exact ih ⟨_, start.read? holds read, by rw [array]; rfl⟩

/-- Storage is lengthened by a store, and what new elements refer to is referred to by no variable. Where they hold
no arrays, or there is but one of them, no two of them share anything. -/
structure Lengthened (m : Machine) (r : Ref) (position : Nat) (elem : Ty) (filler u : Variable) (after : Heap) : Prop
    extends m.heap.Gained r position filler u after where
  locals : ∀ c, filler.value.storage? = some c → ∀ f ∈ m.allFrames, ∀ w ∈ f.slots, w.value.storage? ≠ some c
  alone : elem.element? = none ∨ position ≤ (m.heap.elements r).size + 1 →
    ∀ j, (m.heap.elements r).size ≤ j → j < position → after.Alone r j

/-- A plain assignment, in any run of a compiled program, to a position beyond the end of the array that its place
ends in. It lengthens the array, keeps what was in it, stores the value and leaves all other storage and all variables
as they are; it faults or crashes only over a value that is not of the type of the elements. All elements between are
one slot: the zero of their type or, if they are to hold arrays, one empty array that nothing else refers to. -/
theorem stores_beyond {id source : String} {env : Environment} (compiled : ofSource id env source = .ok p)
    (natives : ∀ f ∈ env.natives.natives, f.Backed) (lives : p.Lives x s) {budget : Nat}
    (stores : (p.withSteps budget).Stores x s room i place m₀ v m) (ends : m.Ends place r elem position)
    (beyond : (m.heap.elements r).size ≤ position) (small : position < maxElements) :
    ∃ filler k, m.heap.Lengthens r position elem filler k ∧
      (v.isInit = true → v.value.fits elem = true →
        storeCrash? (.cell r position) elem v k = none ∧ ∃ u, k.assign filler v = .ok u) ∧
      (∀ crash, storeCrash? (.cell r position) elem v k = some crash →
        turn (exec (p.withSteps budget) room) (p.withSteps budget) room i m₀ =
          (.error (.crashed crash), { m with heap := k })) ∧
      (storeCrash? (.cell r position) elem v k = none →
        (∀ fault, k.assign filler v = .error fault →
          turn (exec (p.withSteps budget) room) (p.withSteps budget) room i m₀ =
            (.error (.fault ⟨fault, i.span⟩), { m with heap := k })) ∧
        ∀ u, k.assign filler v = .ok u → ∃ after,
          turn (exec (p.withSteps budget) room) (p.withSteps budget) room i m₀ =
            (.ok (some u.toTemp), { m with heap := after }) ∧ Lengthened m r position elem filler u after) := by
  have code := closed_bodies compiled
  obtain ⟨rfl, _⟩ := emitted_ofTokens compiled
  have holds := lives.backed code natives
  have guides := guides_backing code natives budget
  have before (f : Function) (y : Execution Variable) (prepared : (p.withSteps budget).prepare x s = .inr (f, y)) :
      f.body.Closed := code f (List.mem_of_getElem? (prepare_right prepared).1)
  have held : Discipline.backing.Holds m := guides.handles_tick holds before stores.handles
  obtain ⟨value, visits, ended⟩ := stores.visits
  have backs : m.heap.Backs v := guides.visits_tick holds before visits ended
  -- The array is one that is referred to, so it is there.
  have there : r < m.heap.size := by
    obtain ⟨path, at_, vs, _, _, storage, w, _, _, _, leads, read, array, _⟩ := ends
    have start : Discipline.backing.Reaches m.heap (.var place.root) := trivial
    have reaches := reaches_of_leads held start leads
    exact reaches.read? held read r (by rw [array]; rfl)
  obtain ⟨ty, turned⟩ := stores.turn_eq
  have lengthens : m.heap.Lengthens r position elem _ _ := Heap.lengthens_lengthen there beyond
  have assigned : assign i.span place none ty v m = _ := assign_of_ends there ends beyond small
  generalize m.heap.lengthen r position elem = made at lengthens assigned
  refine ⟨made.1, made.2, lengthens, fun init fits => ?_, fun crash crashes => ?_, fun lasts => ⟨?_, ?_⟩⟩
  · exact ⟨storeCrash?_of_fits _ fits, Heap.ok_of_fits init (lengthens.filler_ty ▸ fits)⟩
  · rw [crashes] at assigned
    rw [turned, Exec.finish, bind_apply, assigned]
  · intro fault failed
    rw [lasts, failed] at assigned
    rw [turned, Exec.finish, bind_apply, assigned]
  · intro u stored
    rw [lasts, stored] at assigned
    refine ⟨made.2.write r position u, by rw [turned, Exec.finish, bind_apply, assigned]; rfl, ?_⟩
    have hu : m.heap.Backs u := fun c refers => backs c (Heap.storage_of_assign stored refers)
    have gained := lengthens.gained held.heap hu beyond
    refine ⟨gained, fun c refers f hf w hw same => ?_, fun few j hn hj => ?_⟩
    · cases lengthens.filler_new refers
      exact Nat.lt_irrefl _ (held.slots hf w hw _ same)
    · exact gained.alone (few.imp_left lengthens.filler_plain) hn hj

def stores? (p : Program) (x : Execution Variable) (s : Session) (turns : List Nat) (own : Nat) :
    Option (Nat × Instr × Machine × Variable × Machine) :=
  (p.reach? x s turns own).bind fun (room, i, m₀) =>
    match i.form, m₀.own.state with
    | .store _ none _ value, _ + 1 =>
      match exec p room value m₀ with
      | (.ok v, m) => some (room, i, m₀, v, m)
      | _ => none
    | _, _ => none

theorem Stores.of_stores? {turns : List Nat} {own : Nat} {op : Option BinaryOp} {ty : Ty} {value : Instr}
    (h : p.stores? x s turns own = some (room, i, m₀, v, m)) (form : i.form = .store place op ty value) :
    p.Stores x s room i place m₀ v m := by
  obtain ⟨⟨room', i', m₁⟩, reached, h⟩ := Option.bind_eq_some_iff.1 h
  obtain ⟨before, inside, visits, entered, passes⟩ := exists_of_reach? reached
  dsimp only at h
  split at h
  case h_1 place' ty' value' state form' behind =>
    split at h
    case h_1 w m' ended =>
      cases h
      cases form.symm.trans form'
      refine .intro visits entered passes form' ?_ ended
      rw [behind]
      exact Nat.succ_ne_zero _
    case h_2 => cases h
  case h_2 => cases h

/-!
A program that stores to the third element of an empty array of arrays. The first two are one array, so what is stored
in the one is found in the other.
-/
namespace Shared

def source : String :=
  "int main() { int a[][]; int b[1]; a[2] = b; a[0][1] = 5; a[1][1] = 7; return a[0][1]; }"

def number (id : NodeId) (span : Span) (n : Int32) : Instr := .mk id span (.literal (Slot.ofInt n))

def row (at_ : Instr) : Place Instr := ⟨1, "a", [.index at_ (.array .int)], .array .int⟩

def entry (first second : Instr) : Place Instr := ⟨1, "a", [.index first (.array .int), .index second .int], .int⟩

def growing : Instr :=
  .mk 9 ⟨39, 40⟩ (.store (row (number 6 ⟨36, 37⟩ 2)) none (.array .int) (.mk 8 ⟨41, 42⟩ (.load ⟨2, "b", [], .array .int⟩)))

def body : Instr :=
  .mk 30 ⟨11, 12⟩ (.block [
    .mk 1 ⟨13, 16⟩ (.declList [.mk 0 ⟨17, 18⟩ (.declare 1 "a" (.array (.array .int)) [] none)]),
    .mk 4 ⟨24, 27⟩ (.declList [.mk 3 ⟨28, 29⟩ (.declare 2 "b" (.array .int) [number 2 ⟨30, 31⟩ 1] none)]),
    growing,
    .mk 16 ⟨52, 53⟩ (.store (entry (number 11 ⟨46, 47⟩ 0) (number 13 ⟨49, 50⟩ 1)) none .int (number 15 ⟨54, 55⟩ 5)),
    .mk 23 ⟨65, 66⟩ (.store (entry (number 18 ⟨59, 60⟩ 1) (number 20 ⟨62, 63⟩ 1)) none .int (number 22 ⟨67, 68⟩ 7)),
    .mk 29 ⟨70, 76⟩ (.ret (some (.mk 28 ⟨77, 78⟩ (.load (entry (number 25 ⟨79, 80⟩ 0) (number 27 ⟨82, 83⟩ 1))))))])

def main : Function := ⟨0, "main", [], .int, body, false, ⟨4, 8⟩⟩

def program : Program := ⟨"test", [main], [], 31, .empty⟩

def begun : Execution Variable := .begin "test" 0 main []

theorem compiled : ofSource "test" .empty source = .ok program :=
  ofSource_eq 20 (by decide +kernel) rfl

theorem lives : program.Lives begun .empty := by
  have started : program.startFunction? 0 [] .empty = some begun := rfl
  exact .start .empty (fun _ hv => absurd hv List.not_mem_nil) started

def unhurried : Program := program.withSteps 100

def third : Place Instr := row (number 6 ⟨36, 37⟩ 2)

def before : Heap := ⟨#[#[], #[Slot.ofInt 0]]⟩

def after : Heap :=
  ⟨#[#[Slot.temp (.array .int) (.array 2), Slot.temp (.array .int) (.array 2), Slot.temp (.array .int) (.array 1)],
    #[Slot.ofInt 0], #[]]⟩

def grown? : Option (Nat × Instr × Machine × Variable × Machine) := unhurried.stores? begun .empty [5] 2

theorem stores_growing : ∃ room m₀ m, unhurried.Stores begun .empty room growing third m₀
      (Slot.temp (.array .int) (.array 1)) m ∧ m.Ends third 0 (.array .int) 2 ∧ m.heap = before ∧
    (turn (exec unhurried room) unhurried room growing m₀).2.heap = after := by
  have code : grown?.map (fun g => (g.2.1, g.2.2.2.1)) = some (growing, Slot.temp (.array .int) (.array 1)) := by rfl
  have state : grown?.map (fun g => (g.2.2.2.2.own.operands, g.2.2.2.2.read? (.var 1), g.2.2.2.2.heap,
      (turn (exec unhurried g.1) unhurried g.1 g.2.1 g.2.2.1).2.heap)) =
    some ([Slot.ofInt 2], some ((Slot.temp (.array (.array .int)) (.array 0)).declaredAs "a" 1), before, after) := by
    decide +kernel
  obtain ⟨⟨room, i, m₀, v, m⟩, found, same⟩ := Option.map_eq_some_iff.1 code
  cases same
  rw [found] at state
  obtain ⟨operands, state⟩ := Prod.mk.inj (Option.some.inj state)
  obtain ⟨read, state⟩ := Prod.mk.inj state
  obtain ⟨heap, turned⟩ := Prod.mk.inj state
  refine ⟨room, m₀, m, Stores.of_stores? found (show growing.form = .store third _ _ _ from rfl), ?_, heap, turned⟩
  exact ⟨[], _, [], Slot.ofInt 2, [], .var 1, _, 2, rfl, operands, .here, read, rfl, rfl, by decide, rfl⟩

theorem stores_beyond_growing : ofSource "test" .empty source = .ok program ∧ program.Lives begun .empty ∧
    ∃ room m₀ m filler u after,
      unhurried.Stores begun .empty room growing third m₀ (Slot.temp (.array .int) (.array 1)) m ∧
      m.Ends third 0 (.array .int) 2 ∧ (m.heap.elements 0).size ≤ 2 ∧ 2 < maxElements ∧
      turn (exec unhurried room) unhurried room growing m₀ = (.ok (some u.toTemp), { m with heap := after }) ∧
      Lengthened m 0 2 (.array .int) filler u after := by
  obtain ⟨room, m₀, m, stores, ends, heap, _⟩ := stores_growing
  have short : (m.heap.elements 0).size ≤ 2 := by
    rw [heap]
    decide
  have small : 2 < maxElements := by decide
  obtain ⟨filler, k, _, converts, _, stored⟩ := stores_beyond compiled
    (fun _ hf => absurd hf List.not_mem_nil) lives stores ends short small
  obtain ⟨lasts, u, assigned⟩ := converts rfl rfl
  obtain ⟨after, turned, lengthened⟩ := (stored lasts).2 u assigned
  exact ⟨compiled, lives, room, m₀, m, filler, u, after, stores, ends, short, small, turned, lengthened⟩

/-- The first two elements are one array, so what is stored in the second is found in the first. -/
theorem elements_shared : ofSource "test" .empty source = .ok program ∧ program.Lives begun .empty ∧
    (∃ room m₀ m, unhurried.Stores begun .empty room growing third m₀ (Slot.temp (.array .int) (.array 1)) m ∧
      m.Ends third 0 (.array .int) 2 ∧ (m.heap.elements 0).size = 0 ∧
      ¬ (turn (exec unhurried room) unhurried room growing m₀).2.heap.Alone 0 0) ∧
    (program.tick begun .empty).tick = .finished (Slot.ofInt 7) := by
  obtain ⟨room, m₀, m, stores, ends, heap, turned⟩ := stores_growing
  refine ⟨compiled, lives, ⟨room, m₀, m, stores, ends, ?_, ?_⟩, by decide +kernel⟩
  · rw [heap]
    rfl
  · rw [turned]
    intro alone
    have same := alone _ 2 rfl rfl 0 1 _ rfl rfl
    exact absurd same.2 (by decide)

end Shared

end Program
end Tickwise
