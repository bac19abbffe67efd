import Tickwise.Proofs.Compile.Comparison
import Tickwise.Proofs.Compile.Emission
import Tickwise.Proofs.Execution.Footprint
import Tickwise.Proofs.Execution.Persistence
import Tickwise.Proofs.Execution.Unlogged
set_option autoImplicit false

/-!
# Executions side by side

A host ticks several executions of a program on one session, in any order. Executions that lead to no common storage
stay apart, and each goes on as it does when no other is ticked.
-/
namespace Tickwise

/-- A native that depends on nothing but its call, and keeps to the storage of its arguments. -/
structure NativeFn.Standalone (f : NativeFn) : Prop where
  content : f.DependsOnContent
  unlogged : f.Unlogged
  confined : f.Confined

theorem Library.natives_standalone (report : String → Report) : ∀ f ∈ natives report, f.Standalone := fun f hf =>
  have plain := natives_plain report f hf
  ⟨natives_onContent report f hf, plain.journal, plain.confined⟩

/-- The code refers to no storage, and natives stand alone. -/
structure Program.Standalone (p : Program) : Prop where
  code : ∀ f ∈ p.functions, f.body.Closed
  natives : ∀ f ∈ p.env.natives.natives, f.Standalone

namespace Program.Standalone

variable {p : Program}

theorem onContent (hp : p.Standalone) : p.OnContent := ⟨hp.code, fun f hf => (hp.natives f hf).content⟩

theorem tick_confined (hp : p.Standalone) (x : Execution Variable) (s : Session) :
    s.heap.Confines x.slots (p.tick x s).session.heap ∧
      ∀ v ∈ (p.tick x s).execution.slots, s.heap.Within x.slots v :=
  p.tick_confined hp.code (fun f hf => (hp.natives f hf).confined) x s

end Program.Standalone

/-!
## Variables that hold the same
-/

section

variable {R : Ref → Ref → Prop} {h k : Heap} {vs ws : List Variable} {r : Ref}

theorem Slot.Alike.refers {v w : Variable} (alike : v.Alike R w) (refers : v.value.storage? = some r) :
    ∃ q, R r q := by
  have value := alike.value
  generalize v.value = a at value refers
  generalize w.value = b at value
  cases value with
  | array paired | object _ paired =>
    cases refers
    exact ⟨_, paired⟩
  | _ => cases refers

theorem Heap.Leads.paired (leads : h.Leads vs r) (stores : h.Alike R k) (alike : vs.Forall₂ (Slot.Alike R) ws) :
    ∃ q, R r q := by
  refine leads.within (P := fun r => ∃ q, R r q) (fun v hv r refers => ?_) ?_
  · obtain ⟨w, _, slot⟩ := forall₂_exists_left alike.flip hv
    exact Slot.Alike.refers slot refers
  · rintro r ⟨q, paired⟩ w hw q' refers
    obtain ⟨u, _, slot⟩ := forall₂_exists_left (stores r q paired).flip (Array.mem_toList_iff.2 hw)
    exact Slot.Alike.refers slot refers

theorem Heap.Alike.reached (stores : h.Alike R k) (alike : vs.Forall₂ (Slot.Alike R) ws) :
    h.Alike (fun r q => R r q ∧ h.Leads vs r) k ∧ vs.Forall₂ (Slot.Alike fun r q => R r q ∧ h.Leads vs r) ws := by
  refine ⟨fun r q ⟨paired, leads⟩ => ?_, ?_⟩
  · refine forall₂_imp_mem (stores r q paired) fun v w hv _ slot => slot.mono fun r' q' refers _ paired => ?_
    exact ⟨paired, .through leads (Array.mem_toList_iff.1 hv) refers⟩
  · exact forall₂_imp_mem alike fun v w hv _ slot => slot.mono fun r q refers _ paired => ⟨paired, .direct hv refers⟩

end

def Execution.Mirrors (x : Execution Variable) (h : Heap) (y : Execution Variable) (k : Heap) : Prop :=
  ∃ R, h.Mirrors R k ∧ x.Alike (Slot.Alike R) y

/-- Two ticks have the same outcome, and leave executions that are the same. -/
def TickResult.Same (r r' : TickResult) : Prop :=
  ∃ R, r.tick.Alike R r'.tick ∧ r.session.heap.Mirrors R r'.session.heap ∧
    r.execution.Alike (Slot.Alike R) r'.execution

theorem TickResult.Same.execution {r r' : TickResult} (same : r.Same r') :
    r.execution.Mirrors r.session.heap r'.execution r'.session.heap := by
  obtain ⟨R, _, mirrors, alike⟩ := same
  exact ⟨R, mirrors, alike⟩

namespace Execution.Mirrors

variable {x y : Execution Variable} {h h' k : Heap} {p : Program}

theorem refl (stored : ∀ r, h.Leads x.slots r → r < h.size) : x.Mirrors h x h := by
  let R : Ref → Ref → Prop := fun r q => r = q ∧ h.Leads x.slots r
  have same {v : Variable} (leads : ∀ r, v.value.storage? = some r → h.Leads x.slots r) : v.Alike R v :=
    .refl fun r refers => ⟨rfl, leads r refers⟩
  refine ⟨R, ⟨⟨?_, ?_⟩, ?_, ?_⟩, ?_⟩
  · exact fun r q r' first second => first.1.trans second.1.symm
  · exact fun r q q' first second => first.1.symm.trans second.1
  · rintro r q ⟨rfl, leads⟩
    exact ⟨stored r leads, stored r leads⟩
  · rintro r q ⟨rfl, leads⟩
    exact List.forall₂_same.2 fun v hv => same fun q => .through leads (Array.mem_toList_iff.1 hv)
  · have positions : x.Alike Eq x := by
      have frame (f : Frame Variable) : f.Alike Eq f :=
        ⟨rfl, rfl, rfl, List.forall₂_same.2 fun _ _ => rfl, List.forall₂_same.2 fun _ _ => rfl, rfl, rfl, rfl⟩
      refine ⟨rfl, rfl, rfl, List.forall₂_same.2 fun f _ => frame f, ?_, rfl, rfl⟩
      cases x.result with
      | none => exact .none
      | some v => exact .some rfl
    exact positions.of_slots (List.forall₂_same.2 fun v hv => same fun r => .direct hv)

theorem lt (mirrors : x.Mirrors h y k) {r : Ref} (leads : h.Leads x.slots r) : r < h.size := by
  obtain ⟨R, heaps, alike⟩ := mirrors
  obtain ⟨q, paired⟩ := leads.paired heaps.alike alike.slots
  exact (heaps.within r q paired).1

theorem elsewhere (mirrors : x.Mirrors h y k) (le : h.size ≤ h'.size)
    (same : ∀ r, h.Leads x.slots r → h'.elements r = h.elements r) : x.Mirrors h' y k := by
  obtain ⟨R, heaps, alike⟩ := mirrors
  obtain ⟨stores, slots⟩ := heaps.alike.reached alike.slots
  refine ⟨fun r q => R r q ∧ h.Leads x.slots r, ⟨⟨?_, ?_⟩, ?_, ?_⟩, alike.of_slots slots⟩
  · exact fun r q r' first second => heaps.unique.1 first.1 second.1
  · exact fun r q q' first second => heaps.unique.2 first.1 second.1
  · rintro r q ⟨paired, _⟩
    obtain ⟨left, right⟩ := heaps.within r q paired
    exact ⟨Nat.lt_of_lt_of_le left le, right⟩
  · intro r q both
    rw [same r both.2]
    exact stores r q both

/-- Ticks of executions that are the same have the same results, whatever natives were invoked before. -/
theorem tick (mirrors : x.Mirrors h y k) (hp : p.Standalone) (j j' : Journal) :
    (p.tick x ⟨h, j⟩).Same (p.tick y ⟨k, j'⟩) := by
  obtain ⟨R, heaps, alike⟩ := mirrors
  obtain ⟨R', _, result⟩ := Program.tick_alike hp.onContent alike
    (show Session.Alike R ⟨h, j'⟩ ⟨k, j'⟩ from ⟨heaps, j'.alike_refl⟩)
  obtain ⟨tick, execution, heap⟩ := Program.tick_unlogged (fun f hf => (hp.natives f hf).unlogged) x h j j'
  refine ⟨R', ?_, ?_, ?_⟩
  · rw [tick]
    exact result.tick
  · rw [heap]
    exact result.session.heap
  · rw [execution]
    exact result.execution

end Execution.Mirrors

/-!
## Hosts
-/

/-- The executions of a host, on its session. -/
structure Host (ι : Type) where
  executions : ι → Execution Variable
  session : Session

namespace Host

variable {ι : Type}

/-- Can storage be reached from the variables of an execution? -/
def Leads (c : Host ι) (i : ι) (r : Ref) : Prop := c.session.heap.Leads (c.executions i).slots r

def result (p : Program) (c : Host ι) (i : ι) : TickResult := p.tick (c.executions i) c.session

/-- All that executions lead to is stored, and no two lead to the same. -/
structure Apart (c : Host ι) : Prop where
  stored : ∀ i r, c.Leads i r → r < c.session.heap.size
  apart : ∀ i j, i ≠ j → ∀ r, c.Leads i r → ¬ c.Leads j r

variable [DecidableEq ι]

def tick (p : Program) (c : Host ι) (i : ι) : Host ι where
  executions := Function.update c.executions i (c.result p i).execution
  session := (c.result p i).session

def ticks (p : Program) (c : Host ι) (order : List ι) : Host ι := order.foldl (Host.tick p) c

def results (p : Program) (i : ι) : Host ι → List ι → List TickResult
  | _, [] => []
  | c, j :: order =>
    let later := results p i (c.tick p j) order
    if j = i then c.result p j :: later else later

variable {p : Program} {c d : Host ι} {i j : ι} {r : Ref}

theorem results_cons_self (p : Program) (c : Host ι) (i : ι) (order : List ι) :
    c.results p i (i :: order) = c.result p i :: (c.tick p i).results p i order :=
  if_pos rfl

theorem results_cons_of_ne (p : Program) (c : Host ι) (other : j ≠ i) (order : List ι) :
    c.results p i (j :: order) = (c.tick p j).results p i order :=
  if_neg other

theorem executions_tick_self (p : Program) (c : Host ι) (i : ι) :
    (c.tick p i).executions i = (c.result p i).execution :=
  Function.update_self ..

theorem executions_tick_of_ne (p : Program) (c : Host ι) (other : j ≠ i) :
    (c.tick p i).executions j = c.executions j :=
  Function.update_of_ne other ..

theorem leads_tick_self (hp : p.Standalone) (leads : (c.tick p i).Leads i r) : c.Leads i r ∨ c.session.heap.size ≤ r := by
  obtain ⟨confines, within⟩ := hp.tick_confined (c.executions i) c.session
  unfold Leads at leads
  rw [executions_tick_self] at leads
  exact confines.owns within (.inl leads)

namespace Apart

variable (apart : c.Apart) (hp : p.Standalone)

include apart hp

theorem kept (other : j ≠ i) (leads : c.Leads j r) :
    (c.tick p i).session.heap.elements r = c.session.heap.elements r := by
  obtain ⟨confines, _⟩ := hp.tick_confined (c.executions i) c.session
  refine confines.kept r fun owns => ?_
  rcases owns with also | beyond
  · exact apart.apart j i other r leads also
  · exact absurd (apart.stored j r leads) (Nat.not_lt_of_le beyond)

theorem leads_tick (other : j ≠ i) : (c.tick p i).Leads j r ↔ c.Leads j r := by
  unfold Leads
  rw [executions_tick_of_ne p c other]
  exact Heap.leads_congr fun r leads => apart.kept hp other leads

theorem tick (i : ι) : (c.tick p i).Apart := by
  obtain ⟨confines, _⟩ := hp.tick_confined (c.executions i) c.session
  have split (j k : ι) (distinct : j ≠ k) (hk : k ≠ i) (r : Ref) (leads : (c.tick p i).Leads j r) :
      ¬ (c.tick p i).Leads k r := by
    intro also
    rw [apart.leads_tick hp hk] at also
    by_cases hj : j = i
    · subst hj
      rcases leads_tick_self hp leads with before | beyond
      · exact apart.apart j k distinct r before also
      · exact absurd (apart.stored k r also) (Nat.not_lt_of_le beyond)
    · rw [apart.leads_tick hp hj] at leads
      exact apart.apart j k distinct r leads also
  constructor
  · intro j r leads
    by_cases hj : j = i
    · subst hj
      have same := (Execution.Mirrors.refl (apart.stored j)).tick hp c.session.journal c.session.journal
      unfold Leads at leads
      rw [executions_tick_self] at leads
      exact same.execution.lt leads
    · rw [apart.leads_tick hp hj] at leads
      exact Nat.lt_of_lt_of_le (apart.stored j r leads) confines.size_le
  · intro j k distinct r leads also
    by_cases hk : k = i
    · exact split k j distinct.symm (fun hj => distinct (hj.trans hk.symm)) r also leads
    · exact split j k distinct hk r leads also

theorem ticks (order : List ι) : (c.ticks p order).Apart := by
  induction order generalizing c with
  | nil => exact apart
  | cons i order ih => exact ih (apart.tick hp i)

theorem results_alone (order : List ι)
    (same : (c.executions i).Mirrors c.session.heap (d.executions i) d.session.heap) :
    (c.results p i order).Forall₂ TickResult.Same (d.results p i (order.filter (· = i))) := by
  induction order generalizing c d with
  | nil => exact .nil
  | cons j order ih =>
    by_cases hj : j = i
    · subst hj
      have result : (c.result p j).Same (d.result p j) := same.tick hp _ _
      rw [List.filter_cons_of_pos (by simp), results_cons_self, results_cons_self]
      refine .cons result (ih (apart.tick hp j) ?_)
      rw [executions_tick_self, executions_tick_self]
      exact result.execution
    · rw [List.filter_cons_of_neg (by simpa using hj), results_cons_of_ne p c hj]
      refine ih (apart.tick hp j) ?_
      obtain ⟨confines, _⟩ := hp.tick_confined (c.executions j) c.session
      rw [executions_tick_of_ne p c (Ne.symm hj)]
      exact same.elsewhere confines.size_le fun r leads => apart.kept hp (Ne.symm hj) leads

end Apart

theorem leads_of_start {h : Heap} {x : Execution Variable} {entry : FunctionId} {args : List Variable}
    (start : p.startFunction? entry args h = some x) (leads : h.Leads x.slots r) : h.Leads args r := by
  let R : Ref → Ref → Prop := fun r q => r = q ∧ h.Leads args r
  have stores : h.Alike R h := by
    rintro r _ ⟨rfl, leads⟩
    exact List.forall₂_same.2 fun v hv => .refl fun q refers => ⟨rfl, .through leads (Array.mem_toList_iff.1 hv) refers⟩
  have values : args.Forall₂ (Slot.Alike R) args :=
    List.forall₂_same.2 fun v hv => .refl fun r refers => ⟨rfl, .direct hv refers⟩
  obtain ⟨f, params, _, bound, rfl⟩ := Program.begin_of_startFunction? start
  have params_alike := Exec.Alike.bindParams_alike stores f.params values
  rw [bound] at params_alike
  cases params_alike with
  | ok alike =>
    have same : (Execution.begin p.id entry f params).Alike (Slot.Alike R) (.begin p.id entry f params) :=
      ⟨rfl, rfl, rfl, .cons (Frame.alike_ofCall _ alike) .nil, .none, rfl, rfl⟩
    obtain ⟨_, _, leads⟩ := leads.paired stores same.slots
    exact leads

end Host

/-!
## Compiled programs
-/

theorem Instr.Closed.all {i : Instr} (closed : i.Closed) : ∀ j ∈ i.all, j.Closed := by
  induction closed with
  | @intro i literal parts ih =>
    rw [all_eq]
    refine List.forall_mem_cons.2 ⟨.intro literal parts, fun j hj => ?_⟩
    obtain ⟨c, hc, hj⟩ := List.mem_flatMap.1 hj
    exact ih c hc j hj

theorem Heap.fields_newObject (h : Heap) (cls : ClassLayout) :
    (h.newObject cls).1.value = .object cls.name h.size ∧
      ∀ v ∈ (h.newObject cls).2.elements h.size, v.value.storage? = none := by
  let fields : List Variable := cls.fields.map fun f => { Slot.zeroed f.ty with name := some f.name }
  refine ⟨rfl, fun v hv => ?_⟩
  change v ∈ (h.alloc fields.toArray).2.elements h.size at hv
  rw [elements_alloc, if_pos rfl] at hv
  obtain ⟨f, _, rfl⟩ := List.mem_map.1 (Array.mem_def.1 hv)
  change (Value.zero f.ty : Value Ref).storage? = none
  cases f.ty <;> rfl

namespace Program

variable {ι : Type} [DecidableEq ι] {p : Program} {c : Host ι}

/-- Executions of a compiled program that were started with arguments without common storage do not interfere, if its
natives stand alone. In whatever order they are ticked, the ticks of each have the same outcomes and leave it at the
same positions with the same contents as when no other is ticked. Between ticks none leads to what another leads to,
and a tick of one changes nothing there. The code has no storage of its own: literals refer to none, and neither do the
fields of a new object. -/
theorem executions_independent {id source : String} {env : Environment}
    (compiled : ofSource id env source = .ok p) (natives : ∀ f ∈ env.natives.natives, f.Standalone)
    {args : ι → List Variable} (stored : ∀ i r, c.session.heap.Leads (args i) r → r < c.session.heap.size)
    (apart : ∀ i j, i ≠ j → ∀ r, c.session.heap.Leads (args i) r → ¬ c.session.heap.Leads (args j) r)
    (start : ∀ i, ∃ entry, p.startFunction? entry (args i) c.session.heap = some (c.executions i)) :
    (∀ order i, (c.results p i order).Forall₂ TickResult.Same (c.results p i (order.filter (· = i)))) ∧
    (∀ order i j r, i ≠ j → (c.ticks p order).Leads j r → ¬ (c.ticks p order).Leads i r ∧
      ((c.ticks p order).tick p i).session.heap.elements r = (c.ticks p order).session.heap.elements r) ∧
    (∀ f ∈ p.functions, ∀ i ∈ f.body.all, ∀ v, i.form = .literal v → v.value.storage? = none) ∧
    ∀ (h : Heap) (cls : ClassLayout), (h.newObject cls).1.value = .object cls.name h.size ∧
      ∀ v ∈ (h.newObject cls).2.elements h.size, v.value.storage? = none := by
  obtain ⟨rfl, _⟩ := emitted_ofTokens compiled
  have hp : p.Standalone :=
    ⟨(onContent_ofSource compiled fun f hf => (natives f hf).content).functions, natives⟩
  have begun (i : ι) (r : Ref) (leads : c.Leads i r) : c.session.heap.Leads (args i) r := by
    obtain ⟨entry, start⟩ := start i
    exact Host.leads_of_start start leads
  have separate : c.Apart := by
    refine ⟨fun i r leads => stored i r (begun i r leads), fun i j other r left right => ?_⟩
    exact apart i j other r (begun i r left) (begun j r right)
  refine ⟨fun order i => ?_, fun order i j r other leads => ?_, fun f hf i hi v form => ?_, fun h cls => ?_⟩
  · exact separate.results_alone hp order (.refl (separate.stored i))
  · have later := separate.ticks hp order
    exact ⟨later.apart j i other.symm r leads, later.kept hp other.symm leads⟩
  · exact ((hp.code f hf).all i hi).literal form
  · exact h.fields_newObject cls

/-!
Two executions of one function, each with an array of its own, which it changes after it waited for a tick.
-/
namespace Neighbours

def wait : NativeFn := ⟨"wait", [.exact .int], .void, Library.wait⟩

def environment : Environment := { Environment.empty with natives := ⟨[wait]⟩, limits := ⟨200, 2⟩ }

def source : String :=
  "int main(int[] a) { int b[] = { a[0], 4 }; wait(1); a[0] += b[1]; return a[0]; }"

def number (id : NodeId) (span : Span) (i : Int32) : Instr := .mk id span (.literal (Slot.ofInt i))

def entry (root : VarId) (name : String) (index : Instr) : Place Instr := ⟨root, name, [.index index .int], .int⟩

def body : Instr :=
  .mk 20 ⟨18, 19⟩ (.block [
    .mk 6 ⟨20, 23⟩ (.declList [.mk 5 ⟨24, 25⟩ (.declare 2 "b" (.array .int) [] (some (.mk 4 ⟨30, 31⟩
      (.list (.array .int) [.mk 2 ⟨32, 33⟩ (.load (entry 1 "a" (number 1 ⟨34, 35⟩ 0))), number 3 ⟨38, 39⟩ 4]))))]),
    .mk 8 ⟨43, 47⟩ (.call (.native 0) [number 7 ⟨48, 49⟩ 1] .void),
    .mk 15 ⟨57, 59⟩ (.store (entry 1 "a" (number 10 ⟨54, 55⟩ 0)) (some .add) .int
      (.mk 14 ⟨60, 61⟩ (.load (entry 2 "b" (number 13 ⟨62, 63⟩ 1))))),
    .mk 19 ⟨66, 72⟩ (.ret (some (.mk 18 ⟨73, 74⟩ (.load (entry 1 "a" (number 17 ⟨75, 76⟩ 0))))))])

def main : Function := ⟨0, "main", [⟨"a", .array .int, 1⟩], .int, body, false, ⟨4, 8⟩⟩

def program : Program := ⟨"side", [main], [], 21, environment⟩

theorem compiled : ofSource "side" environment source = .ok program :=
  ofSource_eq 20 (by decide +kernel) rfl

theorem wait_standalone : wait.Standalone := Library.natives_standalone .printed wait (by simp [Library.natives, wait])

def given (i : Bool) : Variable := Slot.temp (.array .int) (.array i.toNat)

def heap : Heap := ⟨#[#[Slot.ofInt 1], #[Slot.ofInt 10]]⟩

def host : Host Bool where
  executions i := .begin "side" 0 main [(given i).declaredAs "a" 1]
  session := ⟨heap, .empty⟩

theorem heap_plain (r : Ref) : ∀ v ∈ heap.elements r, v.value.storage? = none := by
  have all : ∀ cell ∈ heap.cells.toList, ∀ v ∈ cell.toList, v.value.storage? = none := by decide
  intro v hv
  rw [Heap.elements_eq] at hv
  cases found : heap.cells[r]? with
  | none =>
    rw [found] at hv
    exact absurd hv (Array.not_mem_empty v)
  | some cell =>
    rw [found] at hv
    exact all cell (Array.mem_toList_iff.2 (Array.mem_of_getElem? found)) v (Array.mem_toList_iff.2 hv)

theorem leads_given {i : Bool} {r : Ref} (leads : heap.Leads [given i] r) : r = i.toNat := by
  refine leads.within (P := (· = i.toNat)) (fun v hv r refers => ?_) fun r _ w hw q refers => ?_
  · cases List.mem_singleton.1 hv
    exact (Option.some.inj refers).symm
  · rw [heap_plain r w hw] at refers
    cases refers

theorem executions_independent_neighbours :
    ((host.results program true [true, false, false, true]).map TickResult.tick =
      [.suspended, .finished (Slot.ofInt 14)] ∧
    (host.results program false [true, false, false, true]).map TickResult.tick =
      [.suspended, .finished (Slot.ofInt 5)]) ∧
    ∀ i, (host.results program i [true, false, false, true]).Forall₂ TickResult.Same
      (host.results program i [i, i]) := by
  have stored (i : Bool) (r : Ref) (leads : heap.Leads [given i] r) : r < heap.size := by
    rw [leads_given leads]
    cases i <;> decide
  have apart (i j : Bool) (other : i ≠ j) (r : Ref) (left : heap.Leads [given i] r) : ¬ heap.Leads [given j] r := by
    intro right
    have same := (leads_given left).symm.trans (leads_given right)
    cases i <;> cases j <;> simp_all
  obtain ⟨same, _⟩ := executions_independent (c := host) compiled (List.forall_mem_singleton.2 wait_standalone) stored
    apart fun i => ⟨0, by cases i <;> rfl⟩
  refine ⟨by decide +kernel, fun i => ?_⟩
  have turns := same [true, false, false, true] i
  cases i <;> exact turns

end Neighbours
end Program
end Tickwise
