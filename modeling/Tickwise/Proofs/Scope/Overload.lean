import Mathlib.Data.List.Basic
import Tickwise.Proofs.Typing.Calls
set_option autoImplicit false

/-!
# The callee of a call

A call is resolved to a candidate that takes the arguments and converts fewest of them, if there is only one such
candidate. Which one that is depends on what is declared and not on the order.
-/
namespace Tickwise

namespace ParamType

def accepts : ParamType → Ty → Bool
  | exact ty, arg => ty.accepts arg
  | anyArray, arg => arg = .null || arg.element?.isSome
  | any, arg => arg ≠ .void

theorem cost?_eq (p : ParamType) (arg : Ty) :
    p.cost? arg = if p.accepts arg then some (if p = exact arg then 0 else 1) else none := by
  cases p with
  | exact ty =>
    by_cases same : ty = arg
    · subst same
      simp [cost?, accepts, Ty.accepts]
    · simp [cost?, accepts, same]
  | anyArray => cases arg <;> simp [cost?, accepts, Ty.element?]
  | any => cases arg <;> simp [cost?, accepts]

/-- There are as many arguments as parameters, and each may be passed. -/
def Take (params : List ParamType) (args : List Ty) : Prop :=
  params.length = args.length ∧ ∀ e ∈ params.zip args, e.1.accepts e.2 = true

instance (params : List ParamType) (args : List Ty) : Decidable (Take params args) :=
  inferInstanceAs (Decidable (_ ∧ _))

def converted (params : List ParamType) (args : List Ty) : Nat :=
  (params.zip args).countP fun e => e.1 ≠ .exact e.2

end ParamType

namespace Candidate

open ParamType (Take converted)

variable {c : Candidate} {args : List Ty} {n : Nat}

theorem foldl_costs (pairs : List (ParamType × Ty)) (n : Nat) :
    (pairs.map fun e => e.1.cost? e.2).foldl
        (fun total? cost? => total?.bind fun total => cost?.map (total + ·)) (some n) =
      if ∀ e ∈ pairs, e.1.accepts e.2 = true then some (n + pairs.countP fun e => e.1 ≠ .exact e.2) else none := by
  induction pairs generalizing n with
  | nil => simp
  | cons e pairs ih =>
    rw [List.map_cons, List.foldl_cons, ParamType.cost?_eq]
    by_cases accepted : e.1.accepts e.2 = true
    · have counted := ih (n + if e.1 = .exact e.2 then 0 else 1)
      simp only [accepted, ↓reduceIte, Option.map_some, Option.bind_some, counted, List.forall_mem_cons, true_and,
        List.countP_cons]
      by_cases same : e.1 = .exact e.2 <;> simp [same, Nat.add_assoc, Nat.add_comm]
    · simp [accepted, foldl_none]

theorem cost?_eq (c : Candidate) (args : List Ty) :
    c.cost? args = if Take c.params args then some (converted c.params args) else none := by
  unfold cost? Take converted
  by_cases same : c.params.length = args.length
  · rw [← List.map_uncurry_zip_eq_zipWith, if_neg (not_not.2 same)]
    refine (foldl_costs (c.params.zip args) 0).trans ?_
    simp only [same, true_and, Nat.zero_add]
  · simp [same]

theorem cost?_eq_some_iff : c.cost? args = some n ↔ Take c.params args ∧ converted c.params args = n := by
  rw [cost?_eq]
  by_cases takes : Take c.params args <;> simp [takes]

theorem cost?_eq_none_iff : c.cost? args = none ↔ ¬ Take c.params args := by
  rw [cost?_eq]
  by_cases takes : Take c.params args <;> simp [takes]

end Candidate

/-!
## The best entries of a list
-/

section

open ParamType (Take converted)

variable {α β : Type} {p : α → List ParamType} {q : β → List ParamType} {xs ys : List α} {x : α} {args : List Ty}

def bestBy (p : α → List ParamType) (xs : List α) (args : List Ty) : List α :=
  xs.filter fun x => Take (p x) args ∧ ∀ y ∈ xs, Take (p y) args → converted (p x) args ≤ converted (p y) args

theorem mem_bestBy : x ∈ bestBy p xs args ↔
    x ∈ xs ∧ Take (p x) args ∧ ∀ y ∈ xs, Take (p y) args → converted (p x) args ≤ converted (p y) args := by
  simp [bestBy]

theorem bestBy_eq_nil (none : ∀ x ∈ xs, ¬ Take (p x) args) : bestBy p xs args = [] := by
  rw [List.eq_nil_iff_forall_not_mem]
  intro x hx
  exact none x (mem_bestBy.1 hx).1 (mem_bestBy.1 hx).2.1

theorem bestBy_map (f : α → β) (same : ∀ x, q (f x) = p x) :
    bestBy q (xs.map f) args = (bestBy p xs args).map f := by
  simp [bestBy, List.filter_map, Function.comp_def, same]

theorem bestBy_perm (perm : xs.Perm ys) : (bestBy p xs args).Perm (bestBy p ys args) := by
  simpa only [bestBy, perm.mem_iff] using perm.filter _

end

open Candidate ParamType in
theorem bestBy_eq_filter {c : Candidate} {cs : List Candidate} {args : List Ty} {n : Nat} (attained : c ∈ cs)
    (cost : c.cost? args = some n) (least : ∀ d ∈ cs, ∀ k, d.cost? args = some k → n ≤ k) :
    bestBy params cs args = cs.filter fun d => d.cost? args = some n := by
  obtain ⟨fits, rfl⟩ := cost?_eq_some_iff.1 cost
  apply List.filter_congr
  intro d hd
  simp only [cost?_eq_some_iff, decide_eq_decide]
  constructor
  · rintro ⟨takes, below⟩
    exact ⟨takes, Nat.le_antisymm (below c attained fits) (least d hd _ (cost?_eq_some_iff.2 ⟨takes, rfl⟩))⟩
  · rintro ⟨takes, same⟩
    refine ⟨takes, fun e he fits => ?_⟩
    rw [same]
    exact least e he _ (cost?_eq_some_iff.2 ⟨fits, rfl⟩)

/-!
## One pass over the candidates
-/

namespace Best

variable {b : Best} {best : Option Best} {c : Candidate} {cs seen : List Candidate} {args : List Ty}

structure Tracks (args : List Ty) (seen : List Candidate) (b : Best) : Prop where
  least : ∀ c ∈ seen, ∀ n, c.cost? args = some n → b.cost ≤ n
  first : ∃ others, (seen.filter fun c => c.cost? args = some b.cost) = b.candidate :: others ∧
    (b.tied = false ↔ others = [])

/-- What is kept of the candidates seen: nothing while none of them fits. -/
def Follows (args : List Ty) (seen : List Candidate) (best : Option Best) : Prop :=
  (best = none ∧ ∀ c ∈ seen, c.cost? args = none) ∨ ∃ b, best = some b ∧ b.Tracks args seen

theorem follows_offer (h : Follows args seen best) (c : Candidate) :
    Follows args (seen ++ [c]) (offer args best c) := by
  cases cost : c.cost? args with
  | none =>
    have unchanged : offer args best c = best := by simp [offer, cost]
    rw [unchanged]
    obtain ⟨rfl, unfit⟩ | ⟨b, rfl, least, others, first, tied⟩ := h
    · exact .inl ⟨rfl, List.forall_mem_append.2 ⟨unfit, by simpa⟩⟩
    · refine .inr ⟨b, rfl, List.forall_mem_append.2 ⟨least, by simp [cost]⟩, others, ?_, tied⟩
      simpa [cost] using first
  | some n =>
    obtain ⟨rfl, unfit⟩ | ⟨b, rfl, least, others, first, tied⟩ := h
    · have nothing : (seen.filter fun d => d.cost? args = some n) = [] := by
        simp +contextual [List.filter_eq_nil_iff, unfit]
      refine .inr ⟨⟨c, n, false⟩, by simp [offer, cost], List.forall_mem_append.2 ⟨?_, by simp [cost]⟩, [], ?_, by simp⟩
      · simp +contextual [unfit]
      · simp [nothing, cost]
    · rcases Nat.lt_trichotomy b.cost n with lower | same | higher
      · refine .inr ⟨b, by simp [offer, cost, lower], List.forall_mem_append.2 ⟨least, ?_⟩, others, ?_, tied⟩
        · simpa [cost] using Nat.le_of_lt lower
        · simpa [cost, Nat.ne_of_gt lower] using first
      · subst same
        refine .inr ⟨{ b with tied := true }, by simp [offer, cost], List.forall_mem_append.2 ⟨least, by simp [cost]⟩,
          others ++ [c], ?_, by simp⟩
        simp [cost, first]
      · -- Whatever tied before is beaten now.
        have dear (d : Candidate) (hd : d ∈ seen) (k : Nat) (hk : d.cost? args = some k) : n < k :=
          Nat.lt_of_lt_of_le higher (least d hd k hk)
        have nothing : (seen.filter fun d => d.cost? args = some n) = [] := by
          rw [List.filter_eq_nil_iff]
          intro d hd
          simpa using fun hk => Nat.lt_irrefl n (dear d hd n hk)
        refine .inr ⟨⟨c, n, false⟩, ?_, List.forall_mem_append.2 ⟨?_, by simp [cost]⟩, [], ?_, by simp⟩
        · simp [offer, cost, Nat.lt_asymm higher, Nat.ne_of_gt higher]
        · exact fun d hd k hk => Nat.le_of_lt (dear d hd k hk)
        · simp [nothing, cost]

theorem follows_foldl (h : Follows args seen best) (cs : List Candidate) :
    Follows args (seen ++ cs) (cs.foldl (offer args) best) := by
  induction cs generalizing seen best with
  | nil => simpa using h
  | cons c cs ih => simpa using ih (follows_offer h c)

end Best

open Candidate in
theorem resolve_eq (cs : List Candidate) (args : List Ty) :
    resolve cs args = match bestBy params cs args with
      | [c] => .resolved c.resolved
      | _ :: _ :: _ => .ambiguous
      | [] => if cs = [] then .unknownName else .noneFits := by
  have start : Best.Follows args [] none := .inl ⟨rfl, by simp⟩
  have follows := Best.follows_foldl start cs
  rw [List.nil_append] at follows
  unfold resolve
  obtain ⟨kept, unfit⟩ | ⟨b, kept, least, others, first, tied⟩ := follows
  · rw [kept, bestBy_eq_nil fun c hc => cost?_eq_none_iff.1 (unfit c hc)]
  · have mem : b.candidate ∈ cs.filter fun c => c.cost? args = some b.cost := by
      rw [first]
      exact List.mem_cons_self
    obtain ⟨there, cost⟩ := List.mem_filter.1 mem
    rw [kept, bestBy_eq_filter there (by simpa using cost) least, first]
    cases others with
    | nil => simp [tied.2 rfl]
    | cons d others =>
      have split : b.tied = true := by simpa using tied
      simp [split]

/-!
## What is declared
-/

/-- A function or a native, apart from its place among the others. -/
inductive Callable where
  | function (name : String) (params : List Ty) (ret : Ty)
  | native (f : NativeFn)

namespace Callable

def name : Callable → String
  | function name _ _ => name
  | native f => f.name

def params : Callable → List ParamType
  | function _ params _ => params.map .exact
  | native f => f.params

def ret : Callable → Ty
  | function _ _ ret => ret
  | native f => f.ret

def ofSignature (f : Signature) : Callable := function f.name f.params f.ret

def candidate (callee : Callee) (c : Callable) : Candidate := ⟨callee, c.params, c.ret⟩

/-- A call of the callable under an identity. -/
def resolved (callee : Callee) (c : Callable) : Resolved := (c.candidate callee).resolved

end Callable

namespace ScopeStack

variable {s t : ScopeStack} {name : String} {args : List Ty} {callee : Callee} {c : Callable}

/-- All functions and natives. -/
def declared (s : ScopeStack) : List Callable :=
  s.functions.map Callable.ofSignature ++ s.natives.natives.map Callable.native

/-- What calls of an identity mean. -/
inductive Calls (s : ScopeStack) : Callee → Callable → Prop
  | function {f : Signature} (h : f ∈ s.functions) : Calls s (.user f.id) (.ofSignature f)
  | native {id : NativeId} {f : NativeFn} (h : s.natives.get? id = some f) : Calls s (.native id) (.native f)

def callables (s : ScopeStack) (name : String) : List (Callee × Callable) :=
  ((s.functions.filter (·.name = name)).map fun f => (.user f.id, .ofSignature f)) ++
    (s.natives.overloads name).map fun e => (.native e.1, .native e.2)

theorem mem_callables : (callee, c) ∈ s.callables name ↔ c.name = name ∧ s.Calls callee c := by
  simp only [callables, NativeRegistry.overloads, List.mem_append, List.mem_map, List.mem_filter, Prod.exists,
    List.mem_zipIdx_iff_getElem?, decide_eq_true_eq]
  constructor
  · rintro (⟨f, ⟨hf, named⟩, same⟩ | ⟨id, f, ⟨g, k, ⟨hg, named⟩, pair⟩, same⟩)
    · cases same
      exact ⟨named, .function hf⟩
    · cases pair
      cases same
      exact ⟨named, .native hg⟩
  · rintro ⟨named, ⟨hf⟩ | ⟨hf⟩⟩
    · exact .inl ⟨_, ⟨hf, named⟩, rfl⟩
    · exact .inr ⟨_, _, ⟨_, _, ⟨hf, named⟩, rfl⟩, rfl⟩

theorem snd_callables (s : ScopeStack) (name : String) :
    (s.callables name).map Prod.snd = s.declared.filter fun c => c.name = name := by
  have functions : (s.functions.filter (·.name = name)).map Callable.ofSignature =
      (s.functions.map Callable.ofSignature).filter fun c => c.name = name := by
    rw [List.filter_map]
    rfl
  have natives : (s.natives.overloads name).map (fun e => Callable.native e.2) =
      (s.natives.natives.map Callable.native).filter fun c => c.name = name := by
    conv_rhs => rw [← List.zipIdx_map_fst 0 s.natives.natives, List.map_map, List.filter_map]
    rw [NativeRegistry.overloads, List.map_map]
    rfl
  unfold callables declared
  rw [List.filter_append, ← functions, ← natives, List.map_append, List.map_map, List.map_map]
  rfl

theorem candidates_eq (s : ScopeStack) (name : String) :
    s.candidates name = (s.callables name).map fun e => e.2.candidate e.1 := by
  simp [candidates, callables, Function.comp_def, Candidate.ofSignature, Candidate.ofNative, Callable.candidate,
    Callable.ofSignature, Callable.params, Callable.ret]

def best (s : ScopeStack) (name : String) (args : List Ty) : List (Callee × Callable) :=
  bestBy (fun e => e.2.params) (s.callables name) args

theorem resolve_candidates (s : ScopeStack) (name : String) (args : List Ty) :
    resolve (s.candidates name) args = match s.best name args with
      | [e] => .resolved (e.2.resolved e.1)
      | _ :: _ :: _ => .ambiguous
      | [] => if s.callables name = [] then .unknownName else .noneFits := by
  have best : bestBy Candidate.params (s.candidates name) args =
      (s.best name args).map fun e => e.2.candidate e.1 := by
    rw [candidates_eq]
    exact bestBy_map _ fun _ => rfl
  rw [resolve_eq, best, candidates_eq]
  rcases s.best name args with _ | ⟨e, _ | ⟨d, es⟩⟩ <;> simp [Callable.resolved]

theorem best_perm (perm : s.declared.Perm t.declared) (name : String) (args : List Ty) :
    ((s.best name args).map Prod.snd).Perm ((t.best name args).map Prod.snd) := by
  have mapped (u : ScopeStack) : (u.best name args).map Prod.snd =
      bestBy Callable.params (u.declared.filter fun c => c.name = name) args := by
    rw [← snd_callables, bestBy_map Prod.snd fun _ => rfl]
    rfl
  rw [mapped, mapped]
  exact bestBy_perm (perm.filter _)

theorem calls_of_best {es : List (Callee × Callable)} (h : s.best name args = (callee, c) :: es) : s.Calls callee c := by
  have mem : (callee, c) ∈ s.best name args := by
    rw [h]
    exact List.mem_cons_self
  exact (mem_callables.1 (mem_bestBy.1 mem).1).2

theorem resolveCall_eq (s : ScopeStack) (name : String) (span : Span) (args : List Ty) :
    s.resolveCall name span args = match s.best name args with
      | [e] => (some (e.2.resolved e.1), s)
      | _ :: _ :: _ => (none, s.recordError .ambiguousOverload span)
      | [] => (none, s.recordError (if s.callables name = [] then .undefinedFunction else .noMatchingOverload) span) := by
  unfold resolveCall
  rw [resolve_candidates]
  rcases s.best name args with _ | ⟨e, _ | ⟨d, es⟩⟩
  · by_cases empty : s.callables name = [] <;> simp [empty]
  · rfl
  · rfl

theorem conversions_of_resolveCall {span : Span} {r : Resolved}
    (resolved : (s.resolveCall name span args).1 = some r) :
    (s.resolveCall name span args).2 = s ∧ r.conversions.length = args.length := by
  rw [resolveCall_eq] at resolved ⊢
  rcases best : s.best name args with _ | ⟨⟨callee, c⟩, _ | ⟨d, es⟩⟩ <;> rw [best] at resolved
  case nil => cases resolved
  case cons.cons => cases resolved
  case cons.nil =>
    have mem : (callee, c) ∈ s.best name args := by simp [best]
    have takes := (mem_bestBy.1 mem).2.1
    cases resolved
    exact ⟨rfl, (List.length_map _).trans takes.1⟩

theorem callables_eq_nil_iff : s.callables name = [] ↔ ∀ callee c, s.Calls callee c → c.name ≠ name := by
  rw [List.eq_nil_iff_forall_not_mem, Prod.forall]
  simp only [mem_callables, not_and, ne_eq]
  exact forall₂_congr fun _ _ => ⟨fun h calls named => h named calls, fun h named calls => h calls named⟩

theorem resolveCall_perm (perm : s.declared.Perm t.declared) (name : String) (span : Span) (args : List Ty) :
    (∃ callee callee' c, s.Calls callee c ∧ t.Calls callee' c ∧
      s.resolveCall name span args = (some (c.resolved callee), s) ∧
      t.resolveCall name span args = (some (c.resolved callee'), t)) ∨
    ∃ cause, s.resolveCall name span args = (none, s.recordError cause span) ∧
      t.resolveCall name span args = (none, t.recordError cause span) := by
  have same := best_perm perm name args
  have known : s.callables name = [] ↔ t.callables name = [] := by
    rw [← List.map_eq_nil_iff (f := Prod.snd), snd_callables, ← List.map_eq_nil_iff (f := Prod.snd), snd_callables]
    have named := perm.filter fun c => c.name = name
    exact ⟨fun h => (h ▸ named).nil_eq.symm, fun h => (h ▸ named).eq_nil⟩
  have lengths : (s.best name args).length = (t.best name args).length := by simpa using same.length_eq
  rw [resolveCall_eq, resolveCall_eq]
  rcases left : s.best name args with _ | ⟨⟨callee, c⟩, _ | ⟨d, es⟩⟩ <;>
    rcases right : t.best name args with _ | ⟨⟨callee', c'⟩, _ | ⟨d', es'⟩⟩ <;>
    simp only [left, right, List.length_nil, List.length_cons] at lengths
  case nil.nil => exact .inr ⟨_, rfl, by simp only [known]⟩
  case cons.nil.cons.nil =>
    have here := calls_of_best left
    have there := calls_of_best right
    rw [left, right] at same
    cases List.singleton_perm_singleton.1 same
    exact .inl ⟨callee, callee', c, here, there, rfl, rfl⟩
  case cons.cons.cons.cons => exact .inr ⟨_, rfl, rfl⟩
  all_goals omega

/-- A call is resolved if and only if one callable of its name is best for the arguments: it takes them all, and any
other one that does converts more of them. Otherwise the error says whether several are best, none fits or there is
none. Both the callable and the error are the same in whatever order the functions and natives are declared. -/
theorem resolveCall_best (s : ScopeStack) (name : String) (span : Span) (args : List Ty) :
    (∀ r, (s.resolveCall name span args).1 = some r ↔
      ∃ callee c, s.best name args = [(callee, c)] ∧ r = c.resolved callee) ∧
    (∀ r, (s.resolveCall name span args).1 = some r →
      (s.resolveCall name span args).2 = s ∧ r.conversions.length = args.length) ∧
    (2 ≤ (s.best name args).length →
      s.resolveCall name span args = (none, s.recordError .ambiguousOverload span)) ∧
    ((∃ e, e ∈ s.callables name) → (∀ e ∈ s.callables name, ¬ ParamType.Take e.2.params args) →
      s.resolveCall name span args = (none, s.recordError .noMatchingOverload span)) ∧
    ((∀ callee c, s.Calls callee c → c.name ≠ name) →
      s.resolveCall name span args = (none, s.recordError .undefinedFunction span)) ∧
    ∀ t : ScopeStack, s.declared.Perm t.declared →
      (∃ callee callee' c, s.Calls callee c ∧ t.Calls callee' c ∧
        s.resolveCall name span args = (some (c.resolved callee), s) ∧
        t.resolveCall name span args = (some (c.resolved callee'), t)) ∨
      ∃ cause, s.resolveCall name span args = (none, s.recordError cause span) ∧
        t.resolveCall name span args = (none, t.recordError cause span) := by
  refine ⟨fun r => ?_, fun r => conversions_of_resolveCall, fun several => ?_, fun known unfit => ?_, fun unknown => ?_,
    fun t perm => resolveCall_perm perm name span args⟩
  · rw [resolveCall_eq]
    rcases s.best name args with _ | ⟨⟨callee, c⟩, _ | ⟨d, es⟩⟩ <;> simp [eq_comm]
  · rw [resolveCall_eq]
    rcases best : s.best name args with _ | ⟨e, _ | ⟨d, es⟩⟩ <;> simp [best] at several ⊢
  · have nothing : s.best name args = [] := bestBy_eq_nil unfit
    have there : s.callables name ≠ [] := List.ne_nil_of_mem known.choose_spec
    rw [resolveCall_eq, nothing, if_neg there]
  · have empty := callables_eq_nil_iff.2 unknown
    have nothing : s.best name args = [] := by
      unfold best
      rw [empty]
      rfl
    rw [resolveCall_eq, nothing, if_pos empty]

/-!
A name with two natives, each of which converts one of two integers, and with a function that converts none.
-/
namespace Picking

def native (params : List Ty) : NativeFn :=
  ⟨"pick", params.map .exact, .void, fun c => ⟨.suspend, c.state, c.heap, []⟩⟩

def tied : ScopeStack := .start ⟨[native [.float, .int], native [.int, .float]]⟩

def exact : Signature := ⟨0, "pick", [.int, .int], .int⟩

def first : ScopeStack := { tied with functions := [exact] }

def second : ScopeStack :=
  { ScopeStack.start ⟨[native [.int, .float], native [.float, .int]]⟩ with functions := [exact] }

theorem resolveCall_best_pick :
    (2 ≤ (tied.best "pick" [.int, .int]).length ∧
      tied.resolveCall "pick" .empty [.int, .int] = (none, tied.recordError .ambiguousOverload .empty)) ∧
    ((∃ e, e ∈ tied.callables "pick") ∧ (∀ e ∈ tied.callables "pick", ¬ ParamType.Take e.2.params [.string]) ∧
      tied.resolveCall "pick" .empty [.string] = (none, tied.recordError .noMatchingOverload .empty)) ∧
    ((∀ callee c, tied.Calls callee c → c.name ≠ "choose") ∧
      tied.resolveCall "choose" .empty [] = (none, tied.recordError .undefinedFunction .empty)) ∧
    first.declared.Perm second.declared ∧
      ∃ callee', second.Calls callee' (.ofSignature exact) ∧
        first.resolveCall "pick" .empty [.int, .int] =
          (some ⟨.user 0, .int, [some .int, some .int]⟩, first) ∧
        second.resolveCall "pick" .empty [.int, .int] =
          (some ⟨callee', .int, [some .int, some .int]⟩, second) := by
  have several : 2 ≤ (tied.best "pick" [.int, .int]).length := by decide
  have known : ∃ e, e ∈ tied.callables "pick" := ⟨_, List.mem_cons_self⟩
  have unfit : ∀ e ∈ tied.callables "pick", ¬ ParamType.Take e.2.params [.string] := by decide
  have unknown : ∀ callee c, tied.Calls callee c → c.name ≠ "choose" :=
    callables_eq_nil_iff.1 (List.isEmpty_iff.1 (by rfl))
  have perm : first.declared.Perm second.declared := .cons _ (.swap ..)
  have resolved : first.resolveCall "pick" .empty [.int, .int] =
      (some ((Callable.ofSignature exact).resolved (.user 0)), first) := rfl
  refine ⟨⟨several, (resolveCall_best tied "pick" .empty [.int, .int]).2.2.1 several⟩, ⟨known, unfit, ?_⟩,
    ⟨unknown, ?_⟩, perm, ?_⟩
  · exact (resolveCall_best tied "pick" .empty [.string]).2.2.2.1 known unfit
  · exact (resolveCall_best tied "choose" .empty []).2.2.2.2.1 unknown
  · rcases (resolveCall_best first "pick" .empty [.int, .int]).2.2.2.2.2 second perm with
      ⟨callee, callee', c, meant, there, here, other⟩ | ⟨cause, here, _⟩
    · rw [resolved] at here
      cases meant with
      | function hf =>
        cases List.mem_singleton.1 hf
        exact ⟨callee', there, rfl, other⟩
      | native _ => cases here
    · rw [resolved] at here
      cases here

end Picking

end ScopeStack

end Tickwise
