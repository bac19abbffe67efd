import Tickwise.Proofs.Compile.Independence
set_option autoImplicit false

/-!
# One body at a time

When every body but one is replaced by an empty block, that one is compiled as before: the declarations of the unit are
the same, and a body sees nothing of the others.
-/
namespace Tickwise

open Compile Compiler

def Header.after (h : Header) : List Token := (skipBlock? 0 h.body).getD []

def Header.block (h : Header) : List Token := h.body.take (h.body.length - h.after.length)

def Header.braces (h : Header) : List Token := h.block.take 1 ++ h.block.drop (h.block.length - 1)

/-- The tokens of a unit of which only the function `id` keeps its body. -/
def Compile.isolate (id : FunctionId) : List Header → List Token → List Token
  | [], tokens => tokens
  | h :: headers, tokens =>
    tokens.take (tokens.length - h.body.length) ++ (if h.id = id then h.block else h.braces) ++
      isolate id headers h.after

def Header.Distinct (h : Header) : Prop := (h.params.map fun p => p.1.text).Nodup

/-- What is left of the block of a function, behind the opening brace: all of it or the closing brace. -/
def Compile.Isolated (R : Span → Span → Prop) (i id : FunctionId) (block block' : List Token) : Prop :=
  (∀ t ∈ block, t.isWord .classWord = false) ∧
    if id = i then block.Forall₂ (Token.Alike R) block' else ∃ t, t.isOp .rightBrace = true ∧ block' = [t]

section Lists

variable {α β : Type} {R : α → β → Prop}

theorem exists_mem_zip {as : List α} {bs : List β} (length : as.length = bs.length) {a : α} (mem : a ∈ as) :
    ∃ b, (a, b) ∈ as.zip bs := by
  rw [← List.map_fst_zip (Nat.le_of_eq length)] at mem
  obtain ⟨⟨_, b⟩, both, rfl⟩ := List.mem_map.1 mem
  exact ⟨b, both⟩

theorem forall₂_append_left {as as' : List α} {cs : List β} (h : (as ++ as').Forall₂ R cs) :
    ∃ bs bs', cs = bs ++ bs' ∧ as.Forall₂ R bs ∧ as'.Forall₂ R bs' := by
  have h : cs.Forall₂ (flip R) (as ++ as') := .flip h
  exact ⟨cs.take as.length, cs.drop as.length, (List.take_append_drop _ cs).symm,
    (List.forall₂_take_append cs as as' h).flip, (List.forall₂_drop_append cs as as' h).flip⟩

end Lists

theorem none_of_alike {R : Span → Span → Prop} {p : Token → Bool} (hp : ∀ {t u : Token}, t.Alike R u → p t = p u)
    {ts us : List Token} (same : ts.Forall₂ (Token.Alike R) us) (h : ∀ t ∈ ts, p t = false) :
    ∀ u ∈ us, p u = false := by
  induction same with
  | nil => nofun
  | cons first _ ih =>
    obtain ⟨head, tail⟩ := List.forall_mem_cons.1 h
    exact List.forall_mem_cons.2 ⟨(hp first).symm.trans head, ih tail⟩

theorem closes_of_skipBlock? {depth : Nat} {block rest : List Token}
    (h : skipBlock? (depth + 1) (block ++ rest) = some rest) :
    ∃ inner close, block = inner ++ [close] ∧ close.isOp .rightBrace = true := by
  induction block generalizing depth with
  | nil => exact absurd (skipBlock?_suffix h).2 (Nat.lt_irrefl _)
  | cons t block ih =>
    have longer {depth : Nat} (h : skipBlock? (depth + 1) (block ++ rest) = some rest) :
        ∃ inner close, t :: block = inner ++ [close] ∧ close.isOp .rightBrace = true := by
      obtain ⟨inner, close, rfl, closes⟩ := ih h
      exact ⟨t :: inner, close, rfl, closes⟩
    rw [List.cons_append] at h
    unfold skipBlock? at h
    split at h
    case isTrue => exact longer h
    case isFalse =>
      split at h
      case isTrue right =>
        cases depth with
        | zero =>
          obtain rfl : block = [] := List.append_left_eq_self.1 (Option.some.inj h)
          exact ⟨[], t, rfl, right⟩
        | succ depth => exact longer h
      case isFalse => exact longer h

theorem skipBlock?_alike {R : Span → Span → Prop} {block block' rest rest' : List Token}
    (same : block.Forall₂ (Token.Alike R) block') {depth : Nat}
    (h : skipBlock? (depth + 1) (block ++ rest) = some rest) :
    skipBlock? (depth + 1) (block' ++ rest') = some rest' := by
  let K : Sides := ⟨R, rest, rest', .empty, fun _ _ => True⟩
  have aligned : Aligned K (depth + 1) (block ++ rest) (block' ++ rest') := .of_skipBlock? (K := K) same h
  exact (aligned.skips.resolve_left fun outside => Nat.succ_ne_zero _ outside.1).2

theorem classNames_append {front : List Token} (h : ∀ t ∈ front, t.isWord .classWord = false) (rest : List Token) :
    classNames (front ++ rest) = classNames rest := by
  induction front with
  | nil => rfl
  | cons t front ih =>
    obtain ⟨first, h⟩ := List.forall_mem_cons.1 h
    have one (ts : List Token) : classNames (t :: ts) = classNames ts := by
      cases ts with
      | nil => rfl
      | cons u ts => simp [classNames, first]
    exact (one _).trans (ih h)

theorem Compile.Parted.classNames_eq {R : Span → Span → Prop} {i id : FunctionId} {ts us : List Token}
    (h : Parted R (Isolated R i) id ts us) : classNames ts = classNames us := by
  induction h with
  | nil => rfl
  | @step _ t u ts us same _ more ih =>
    cases more.heads with
    | none => rfl
    | @some v w ts us next =>
      obtain ⟨kind, text, _⟩ := same
      obtain ⟨kind', text', _⟩ := next
      rw [classNames, classNames, ih]
      rfl
  | @body _ t u _ _ rest rest' same closes bodies _ ih =>
    obtain ⟨opens, open', _, _, clear, related⟩ := bodies
    have operator {t : Token} {op : Operator} (h : t.isOp op = true) : t.isWord .classWord = false := by
      have kind : t.kind = .operator op := of_decide_eq_true h
      simp [Token.isWord, kind]
    have front {t u : Token} {block rest : List Token} (ht : t.isWord .classWord = false)
        (hu : u.isWord .classWord = false) (clear : ∀ t ∈ block, t.isWord .classWord = false) :
        classNames (t :: u :: (block ++ rest)) = classNames rest :=
      classNames_append (List.forall_mem_cons.2 ⟨ht, List.forall_mem_cons.2 ⟨hu, clear⟩⟩) rest
    rw [front (operator closes) (operator opens) clear, ih]
    refine (front ((same.isWord _).symm.trans (operator closes)) ((open'.isWord _).symm.trans (operator opens)) ?_).symm
    split at related
    case isTrue => exact none_of_alike (fun same => same.isWord _) related clear
    case isFalse =>
      obtain ⟨t, ends, rfl⟩ := related
      exact List.forall_mem_singleton.2 (operator ends)

namespace Compile.Parted

variable {R : Span → Span → Prop} {B : FunctionId → List Token → List Token → Prop} {id : FunctionId}

theorem steps {front front' rest rest' : List Token} (same : front.Forall₂ (Token.Alike R) front')
    (unclosed : ∀ t ∈ front, t.isOp .rightParen = false) (more : Parted R B id rest rest') :
    Parted R B id (front ++ rest) (front' ++ rest') := by
  induction same with
  | nil => exact more
  | cons first _ ih =>
    obtain ⟨head, tail⟩ := List.forall_mem_cons.1 unclosed
    refine .step first (fun closes => ?_) (ih tail)
    rw [head] at closes
    cases closes

end Compile.Parted

theorem Header.block_eq {h : Header} {block rest : List Token} (body : h.body = block ++ rest)
    (skipped : skipBlock? 0 h.body = some rest) : h.after = rest ∧ h.block = block := by
  have after : h.after = rest := by rw [after, skipped]; rfl
  refine ⟨after, ?_⟩
  rw [Header.block, after, body, List.length_append, Nat.add_sub_cancel, List.take_left]

theorem Header.kept {R : Span → Span → Prop} {h : Header} {t : Token} {inner rest : List Token} (i : FunctionId)
    (block : h.block = t :: inner) (skipped : skipBlock? 1 (inner ++ rest) = some rest)
    (clear : ∀ t ∈ inner, t.isWord .classWord = false) :
    ∃ kept, (if h.id = i then h.block else h.braces) = t :: kept ∧ ∀ kept' rest', kept.Forall₂ (Token.Alike R) kept' →
      Isolated R i h.id inner kept' ∧ skipBlock? 1 (kept' ++ rest') = some rest' := by
  unfold Isolated
  split
  case isTrue whole =>
    refine ⟨inner, block, fun kept' rest' same => ⟨⟨clear, same⟩, skipBlock?_alike same skipped⟩⟩
  case isFalse other =>
    obtain ⟨mid, close, rfl, closes⟩ := closes_of_skipBlock? skipped
    refine ⟨[close], ?_, ?_⟩
    · simp [braces, block]
    · intro kept' rest' same
      cases same with
      | @cons _ u _ _ first more =>
        cases more
        have right : u.isOp .rightBrace = true := (first.isOp _).symm.trans closes
        have left : u.isOp .leftBrace = false := Token.isOp_of_ne right nofun
        refine ⟨⟨clear, u, right, rfl⟩, ?_⟩
        rw [List.singleton_append, skipBlock?, left, if_neg Bool.false_ne_true, if_pos right, if_pos (Nat.le_refl 1)]

theorem Compile.isolate_append {i : FunctionId} {headers : List Header} {front rest : List Token}
    (short : ∀ h ∈ headers.head?, h.body.length ≤ rest.length) :
    isolate i headers (front ++ rest) = front ++ isolate i headers rest := by
  cases headers with
  | nil => rfl
  | cons h headers =>
    have short := short h rfl
    have all : (front ++ rest).length - h.body.length = front.length + (rest.length - h.body.length) := by
      rw [List.length_append]
      omega
    rw [isolate, isolate, all, List.take_length_add_append, List.append_assoc, List.append_assoc, List.append_assoc]

theorem Compile.isolate_cons {i : FunctionId} {h : Header} {headers : List Header} {head block rest : List Token}
    (body : h.body = block ++ rest) (skipped : skipBlock? 0 h.body = some rest) :
    isolate i (h :: headers) (head ++ (block ++ rest)) =
      head ++ ((if h.id = i then h.block else h.braces) ++ isolate i headers rest) := by
  have length : (head ++ (block ++ rest)).length - h.body.length = head.length := by
    rw [body, List.length_append, Nat.add_sub_cancel]
  rw [isolate, length, List.take_left, (Header.block_eq body skipped).1, List.append_assoc]

theorem skipBlock?_subset {depth : Nat} {tokens : List Token} :
    ∀ t ∈ (skipBlock? depth tokens).getD [], t ∈ tokens := by
  intro t mem
  cases skipped : skipBlock? depth tokens with
  | none => cases skipped ▸ mem
  | some rest => exact (skipBlock?_suffix skipped).1.subset (by rwa [skipped] at mem)

theorem Compile.forall_mem_isolate {P : Token → Prop} {i : FunctionId} {headers : List Header} {tokens : List Token}
    (all : ∀ t ∈ tokens, P t) (bodies : ∀ h ∈ headers, ∀ t ∈ h.body, P t) : ∀ t ∈ isolate i headers tokens, P t := by
  induction headers generalizing tokens with
  | nil => exact all
  | cons h headers ih =>
    obtain ⟨body, bodies⟩ := List.forall_mem_cons.1 bodies
    have block (t : Token) (mem : t ∈ h.block) : P t := body t (List.mem_of_mem_take mem)
    refine List.forall_mem_append.2 ⟨List.forall_mem_append.2 ⟨fun t mem => all t (List.mem_of_mem_take mem), ?_⟩, ?_⟩
    · split
      · exact block
      · exact List.forall_mem_append.2
          ⟨fun t mem => block t (List.mem_of_mem_take mem), fun t mem => block t (List.mem_of_mem_drop mem)⟩
    · exact ih (fun t mem => body t (skipBlock?_subset t mem)) bodies

namespace Compile.Cut

variable {tokens stop : List Token} {headers : List Header}

theorem body_subset (cut : Cut tokens stop headers) : ∀ h ∈ headers, ∀ t ∈ h.body, t ∈ tokens := by
  induction cut with
  | refl => nofun
  | classDeclaration _ _ _ _ _ ih => exact fun h mem t ht => List.mem_append_right _ (ih h mem t ht)
  | function _ _ body _ _ _ _ ih =>
    refine List.forall_mem_cons.2 ⟨fun t mem => ?_, fun h mem t ht => ?_⟩
    · exact List.mem_append_right _ (body ▸ mem)
    · exact List.mem_append_right _ (List.mem_append_right _ (ih h mem t ht))

theorem length_body_le (cut : Cut tokens stop headers) : ∀ h ∈ headers.head?, h.body.length ≤ tokens.length := by
  induction cut with
  | refl => nofun
  | classDeclaration _ _ _ _ _ ih =>
    intro h mem
    rw [List.length_append]
    exact Nat.le_add_left_of_le (ih h mem)
  | function _ _ body =>
    rintro h ⟨⟩
    rw [body]
    simp only [List.length_append]
    omega

theorem parted {R : Span → Span → Prop} {i id : FunctionId} {tokens' : List Token}
    (cut : Cut tokens stop headers) (all : stop = []) (positions : ∀ k h, headers[k]? = some h → h.id = id + k)
    (clear : ∀ h ∈ headers, ∀ t ∈ h.block, t.isWord .classWord = false)
    (same : (isolate i headers tokens).Forall₂ (Token.Alike R) tokens') :
    Parted R (Isolated R i) id tokens tokens' := by
  -- The pieces are those of the first pass. What is behind a piece is again a unit with one body.
  induction cut generalizing id tokens' with
  | refl =>
    subst all
    cases same
    exact .nil id
  | @classDeclaration front rest _ headers _ s s' _ run before begins after more ih =>
    obtain ⟨_, before', unclosed⟩ := ((Takes.classDeclaration begins).leaves rfl run).2.append
    obtain rfl := List.append_cancel_right (before.symm.trans (before'.trans (congrArg _ after)))
    rw [isolate_append more.length_body_le] at same
    obtain ⟨front', rest', rfl, front, rest⟩ := forall₂_append_left same
    exact .steps front unclosed (ih all positions clear rest)
  | @function head block rest _ headers _ _ s s' h run before body opens after _ more ih =>
    obtain ⟨front, close, rfl, closes, unclosed⟩ := head_of_functionHeader run before
    obtain ⟨-, -, opens, skipped⟩ := (Takes.functionHeader _).leaves rfl run
    rw [after] at skipped
    rw [isolate_cons body skipped] at same
    have whole := (Header.block_eq body skipped).2
    obtain ⟨t, inner, body', left, skipped⟩ := block_of_skipBlock? opens skipped
    obtain rfl : block = t :: inner := List.append_cancel_right (body.symm.trans body')
    obtain ⟨first, clear⟩ := List.forall_mem_cons.1 clear
    rw [whole] at first
    obtain ⟨kept, split, blocks⟩ := Header.kept (R := R) i whole skipped (List.forall_mem_cons.1 first).2
    rw [split, List.append_assoc] at same
    obtain ⟨front', _, rfl, alike, behind⟩ := forall₂_append_left same
    -- The parenthesis and the brace are the same on both sides; then come what is kept of the block, and the rest.
    cases behind with
    | cons closing behind =>
      cases behind with
      | cons opening behind =>
        obtain ⟨kept', rest', rfl, same, more⟩ := forall₂_append_left behind
        obtain ⟨related, right⟩ := blocks kept' rest' same
        have here : h.id = id := positions 0 h rfl
        have positions (k : Nat) (h : Header) (mem : headers[k]? = some h) : h.id = id + 1 + k := by
          rw [positions (k + 1) h mem, Nat.add_assoc, Nat.add_comm k]
        rw [List.append_assoc, List.singleton_append]
        refine .steps alike unclosed (.body closing closes ?_ (ih all positions clear more))
        exact here ▸ .mk left opening skipped right related

theorem getLast?_isolate (cut : Cut tokens stop headers) (i : FunctionId) :
    (isolate i headers tokens).getLast? = tokens.getLast? := by
  induction cut with
  | refl => rfl
  | classDeclaration _ _ _ _ more ih =>
    rw [isolate_append more.length_body_le, List.getLast?_append, ih, ← List.getLast?_append]
  | @function _ block _ _ _ _ _ _ _ h run _ body _ after _ _ ih =>
    obtain ⟨-, -, -, skipped⟩ := (Takes.functionHeader _).leaves rfl run
    rw [after] at skipped
    have kept : (if h.id = i then h.block else h.braces).getLast? = block.getLast? := by
      rw [Header.braces, (Header.block_eq body skipped).2]
      split
      · rfl
      · obtain rfl | ⟨front, last, rfl⟩ := block.eq_nil_or_concat'
        · rfl
        · rw [List.length_append, List.length_singleton, Nat.add_sub_cancel, List.drop_left, List.getLast?_append,
            List.getLast?_append]
          rfl
    rw [isolate_cons body skipped, List.getLast?_append, List.getLast?_append, ih, kept, ← List.getLast?_append,
      ← List.getLast?_append]

end Compile.Cut

theorem block_empty (lv : Level) (isScoped : Bool) (ctx : Context) (turns : ctx.turns ≠ 0) {s : State} {t u : Token}
    {rest : List Token} (hs : s.rest = t :: u :: rest) (left : t.isOp .leftBrace = true)
    (right : u.isOp .rightBrace = true) :
    ∃ i s', block lv isScoped ctx s = (some i, s') := by
  obtain ⟨tokens, scopes, nextNode⟩ := s
  obtain rfl : tokens = t :: u :: rest := hs
  obtain ⟨_, text, span⟩ := t
  obtain ⟨_, text', span'⟩ := u
  obtain rfl := of_decide_eq_true left
  obtain rfl := of_decide_eq_true right
  obtain ⟨env, classNames, classes, stop, turns', ret, breakables⟩ := ctx
  cases turns' with
  | zero => exact absurd rfl turns
  | succ =>
    cases isScoped with
    | true => exact ⟨_, _, rfl⟩
    | false => exact ⟨_, _, rfl⟩

theorem declareVar_fresh (ctx : Context) {s : State} {f : ScopeFrame} {fs : List ScopeFrame} {name : String}
    (span : Span) (ty : Ty) (frames : s.scopes.frames = f :: fs) (isBlock : f.isBlock = true)
    (fresh : ∀ v ∈ f.vars, v.name ≠ some name) :
    ∃ id s' v, declareVar name span ty ctx s = (some id, s') ∧ s'.rest = s.rest ∧ v.name = some name ∧
      s'.scopes.frames = { f with vars := v :: f.vars } :: fs := by
  let v : Variable := (Slot.fresh ty).declaredAs name s.scopes.nextVar
  let after : ScopeStack := { s.scopes with
    frames := { f with vars := v :: f.vars } :: fs
    nextVar := s.scopes.nextVar + 1 }
  let next : ScopeStack := { s.scopes with nextVar := s.scopes.nextVar + 1 }
  have single : next.isDuplicate name = false := by
    change (ScopeStack.innermostGroup s.scopes.frames).any _ = false
    rw [frames, ScopeStack.innermostGroup, if_pos isBlock, List.any_cons, List.any_nil, Bool.or_false,
      List.any_eq_false]
    simpa using fresh
  have declared : next.declare span v = (true, after) := by
    have named : v.name.getD "" = name := rfl
    have frames : next.frames = f :: fs := frames
    rw [ScopeStack.declare, named, single, frames, if_neg Bool.false_ne_true]
  refine ⟨s.scopes.nextVar, { s with scopes := after }, v, ?_, rfl, rfl, rfl⟩
  have fresh : Compiler.onScopes ScopeStack.freshVar ctx s = (some s.scopes.nextVar, { s with scopes := next }) := rfl
  rw [declareVar, bind_apply, fresh]
  unfold Compiler.onScopes?
  dsimp only
  rw [declared]
  rfl

theorem declareParameters_fresh (ctx : Context) {params : List (Token × Ty)}
    (distinct : (params.map fun p => p.1.text).Nodup) {s : State} {f : ScopeFrame} {fs : List ScopeFrame}
    (frames : s.scopes.frames = f :: fs) (isBlock : f.isBlock = true)
    (fresh : ∀ p ∈ params, ∀ v ∈ f.vars, v.name ≠ some p.1.text) :
    ∃ ps s', declareParameters params ctx s = (some ps, s') ∧ s'.rest = s.rest := by
  induction params generalizing s f with
  | nil => exact ⟨[], s, rfl, rfl⟩
  | cons p params ih =>
    obtain ⟨name, ty⟩ := p
    obtain ⟨new, distinct⟩ := List.nodup_cons.1 distinct
    obtain ⟨first, fresh⟩ := List.forall_mem_cons.1 fresh
    obtain ⟨id, s₁, v, declared, rest, named, frames⟩ := declareVar_fresh ctx name.span ty frames isBlock first
    obtain ⟨ps, s', more, rest'⟩ := ih distinct frames isBlock fun p mem => List.forall_mem_cons.2
      ⟨fun same => new (List.mem_map.2 ⟨p, mem, Option.some.inj (same.symm.trans named)⟩), fresh p mem⟩
    refine ⟨⟨name.text, ty, id⟩ :: ps, s', ?_, rest'.trans rest⟩
    rw [declareParameters, bind_apply, declared]
    dsimp only
    rw [bind_apply, more]
    rfl

theorem failure?_empty {ctx : Context} {h : Header} {s : State} {t u : Token} {rest : List Token}
    (turns : ctx.turns ≠ 0) (distinct : h.Distinct) (body : h.body = t :: u :: rest) (left : t.isOp .leftBrace = true)
    (right : u.isOp .rightBrace = true) : failure? (compileBody ctx h s) = none := by
  let ctx' : Context := { ctx with ret := h.ret, breakables := [] }
  let s₁ : State := { s with rest := h.body, scopes := s.scopes.push true }
  have frames : s₁.scopes.frames = ⟨true, [], none, none⟩ :: s.scopes.frames := rfl
  obtain ⟨params, s₂, declared, rest₂⟩ :=
    declareParameters_fresh ctx' distinct frames rfl fun _ _ _ none => nomatch none
  obtain ⟨i, s₃, compiled⟩ := block_empty (Level.ofRoom maxNesting) false ctx' turns (rest₂.trans body) left right
  let f : Function := ⟨h.id, h.name, params, h.ret, i, h.isExtern, h.span⟩
  have inside : (do
      let params ← declareParameters h.params
      let body ← block (Level.ofRoom maxNesting) false
      return (⟨h.id, h.name, params, h.ret, body, h.isExtern, h.span⟩ : Function)) ctx' s₁ = (some f, s₃) := by
    rw [bind_apply, declared]
    dsimp only
    rw [bind_apply, compiled]
    rfl
  have whole : functionBody h ctx' s = (some f, { s₃ with scopes := s₃.scopes.pop }) := by
    rw [functionBody, bind_apply]
    change inFrame true _ ctx' { s with rest := h.body } = _
    rw [inFrame, inside]
  unfold compileBody
  rw [whole]
  rfl

namespace Program

/-- A unit of which each token can be read and each class and header is well formed, with the word `class` in no
body. -/
structure Declared (env : Environment) (tokens : List Token) : Prop where
  readable : badToken? tokens = none
  outlined : (outline env tokens).error = none
  clear : ∀ h ∈ (outline env tokens).headers, ∀ t ∈ h.block, t.isWord .classWord = false

def bodyContext (env : Environment) (tokens : List Token) : Context :=
  { unitContext env tokens with classes := (outline env tokens).classes }

/-- The error of a body that is compiled before all others. -/
def bodyError? (env : Environment) (tokens : List Token) (h : Header) : Option CompileError :=
  failure? (compileBody (bodyContext env tokens) h (outline env tokens).state)

variable {env : Environment} {tokens tokens' : List Token} {R : Span → Span → Prop} {i : FunctionId}

section Lists

variable {A : CompileError → CompileError → Prop} {f f' : Header → Option CompileError} {headers headers' : List Header}

theorem filterMap_isolated
    (each : headers.Forall₂ (fun g h => if g.id = i then Option.Rel A (f g) (f' h) else f' h = none) headers')
    (ids : (headers.map Header.id).Nodup) :
    (i ∉ headers.map Header.id → headers'.filterMap f' = []) ∧
      ∀ h ∈ headers, h.id = i → (f h).toList.Forall₂ A (headers'.filterMap f') := by
  induction each with
  | nil => exact ⟨fun _ => rfl, nofun⟩
  | @cons g g' headers headers' first _ ih =>
    obtain ⟨new, ids⟩ := List.nodup_cons.1 ids
    obtain ⟨none, one⟩ := ih ids
    by_cases here : g.id = i
    · subst here
      rw [if_pos rfl] at first
      refine ⟨fun absent => absurd List.mem_cons_self absent, fun h mem same => ?_⟩
      rcases List.mem_cons.1 mem with rfl | mem
      · rw [List.filterMap_cons, none new]
        generalize f h = e at first
        generalize f' g' = e' at first
        cases first with
        | none => exact .nil
        | some same => exact .cons same .nil
      · exact absurd (List.mem_map.2 ⟨h, mem, same⟩) new
    · rw [if_neg here] at first
      rw [List.filterMap_cons_none first]
      refine ⟨fun absent => none fun mem => absent (List.mem_cons_of_mem _ mem), fun h mem same => ?_⟩
      rcases List.mem_cons.1 mem with rfl | mem
      · exact absurd same here
      · exact one h mem same

end Lists

theorem parted_isolate (declared : Declared env tokens)
    (same : (isolate i (outline env tokens).headers tokens).Forall₂ (Token.Alike R) tokens') :
    Parted R (Isolated R i) 0 tokens tokens' := by
  obtain ⟨_, cut, all⟩ := cut_outline env tokens
  have positions (k : Nat) (h : Header) (mem : (outline env tokens).headers[k]? = some h) : h.id = 0 + k :=
    ((lists_outline declared.outlined).positions k h mem).trans (Nat.zero_add k).symm
  exact cut.parted (all declared.outlined) positions declared.clear same

theorem alike_outline (env : Environment) (parted : Parted R (Isolated R i) 0 tokens tokens')
    (stop : R (endSpan tokens) (endSpan tokens')) :
    (outline env tokens).Alike ⟨R, [], [], endSpan tokens', fun _ _ => True⟩ (Isolated R i) (outline env tokens') := by
  let K : Sides := ⟨R, [], [], endSpan tokens', fun _ _ => True⟩
  have start : (Outline.start env tokens).Alike K (Isolated R i) (Outline.start env tokens') :=
    ⟨fun _ => parted, ⟨.nil, rfl, rfl, trivial, .none⟩, rfl, .nil, .none⟩
  -- The bounds on turns are those of both units together.
  let n := tokens.length + tokens'.length + 1
  have complete := start.complete { unitContext env tokens with turns := n } stop (fun _ _ => trivial) n
  have ctx : ({ unitContext env tokens with turns := n, endSpan := K.stop } : Context) =
      { unitContext env tokens' with turns := n } := by
    simp only [unitContext, parted.classNames_eq]
    rfl
  have steady : Steady env tokens n n := Compile.steady env tokens (by omega) (by omega)
  have steady' : Steady env tokens' n n := Compile.steady env tokens' (by omega) (by omega)
  rw [ctx, steady.outline, steady'.outline] at complete
  exact complete

theorem readable_alike (declared : Declared env tokens)
    (same : (isolate i (outline env tokens).headers tokens).Forall₂ (Token.Alike R) tokens') :
    badToken? tokens' = none := by
  obtain ⟨_, cut, -⟩ := cut_outline env tokens
  have fine (t : Token) (mem : t ∈ tokens) : t.isError = false := by
    have readable := List.find?_eq_none.1 (Option.map_eq_none_iff.1 declared.readable) t mem
    simpa using readable
  have kept : ∀ t ∈ isolate i (outline env tokens).headers tokens, t.isError = false :=
    forall_mem_isolate fine fun h mem t ht => fine t (cut.body_subset h mem t ht)
  have kept' := none_of_alike Token.Alike.isError same kept
  refine Option.map_eq_none_iff.2 (List.find?_eq_none.2 fun t mem => ?_)
  rw [kept' t mem]
  exact Bool.false_ne_true

theorem bodyError?_steady {h : Header} (mem : h ∈ (outline env tokens).headers) {n : Nat} (hn : tokens.length < n) :
    bodyError? env tokens h =
      failure? (compileBody { bodyContext env tokens with turns := n } h (outline env tokens).state) := by
  have sound := sound_outline_placesOf env tokens
  obtain ⟨placed, short⟩ := sound.headers h mem
  have waits : (outline env tokens).state.Waits fun _ => True := ⟨sound.ended.idle, fun _ _ => trivial⟩
  have turns : h.body.length < (bodyContext env tokens).turns := Nat.lt_succ_of_le short
  rw [bodyError?, compileBody_steady waits placed rfl turns (Nat.lt_of_le_of_lt short hn)]

theorem failure?_isolated {g h : Header} {ctx : Context} {stop : Span} {fs : List Signature} {ns : NativeRegistry}
    {s t : State} (alike : g.Alike R (Isolated R i) h) (turns : ctx.turns ≠ 0) (hstop : R ctx.endSpan stop)
    (hs : s.Rests fs ns) (ht : t.Rests fs ns) :
    if g.id = i then Option.Rel (CompileError.Alike R) (failure? (compileBody ctx g s))
      (failure? (compileBody { ctx with endSpan := stop } h t))
    else g.Distinct → failure? (compileBody { ctx with endSpan := stop } h t) = none := by
  obtain ⟨rest, rest', bodies⟩ := alike.body
  split
  case isTrue whole =>
    have same : SameBodies R g.body h.body rest rest' := bodies.imp fun _ _ isolated => (if_pos whole).mp isolated.2
    exact (sameFate_compileBody alike.params alike.ret.symm same hstop hs ht).failure?
  case isFalse other =>
    intro distinct
    generalize body : g.body = b at bodies
    generalize body' : h.body = b' at bodies
    obtain ⟨opens, same, left, right, -, related⟩ := bodies
    rw [if_neg other] at related
    obtain ⟨u, closes, rfl⟩ := related
    have distinct' : h.Distinct := by
      rw [Header.Distinct, ← alike.params.texts]
      exact distinct
    exact failure?_empty turns distinct' body' ((same.isOp _).symm.trans opens) closes

theorem diagnoseTokens_eq (readable : badToken? tokens = none) (outlined : (outline env tokens).error = none) :
    diagnoseTokens env tokens = (outline env tokens).headers.filterMap (bodyError? env tokens) := by
  unfold diagnoseTokens
  rw [readable]
  dsimp only
  rw [outlined]
  exact diagnoseBodies_eq (braced_outline env tokens) (rests_outline env tokens) (rests_outline env tokens)

/-- A unit of which only the function `i` keeps its body; the tokens may be at other ranges. -/
structure OnlyBody (R : Span → Span → Prop) (env : Environment) (i : FunctionId) (tokens tokens' : List Token) :
    Prop where
  kept : (isolate i (outline env tokens).headers tokens).Forall₂ (Token.Alike R) tokens'
  stop : R (endSpan tokens) (endSpan tokens')

theorem bodyErrors_isolated (declared : Declared env tokens) (only : OnlyBody R env i tokens tokens') :
    diagnoseTokens env tokens' = (outline env tokens').headers.filterMap (bodyError? env tokens') ∧
      (outline env tokens).headers.Forall₂
        (fun g g' => g'.id = g.id ∧
          if g.id = i then Option.Rel (CompileError.Alike R) (bodyError? env tokens g) (bodyError? env tokens' g')
          else g.Distinct → bodyError? env tokens' g' = none) (outline env tokens').headers := by
  obtain ⟨same, stop⟩ := only
  have parted := parted_isolate declared same
  have alike := alike_outline env parted stop
  have outlined : (outline env tokens').error = none := by
    have error := alike.error
    rw [declared.outlined] at error
    generalize (outline env tokens').error = e at error
    cases error
    rfl
  refine ⟨diagnoseTokens_eq (readable_alike declared same) outlined, ?_⟩
  -- The bound on turns is that of both units together.
  let n := tokens.length + tokens'.length + 1
  have contexts : ({ bodyContext env tokens' with turns := n } : Context) =
      { bodyContext env tokens with turns := n, endSpan := endSpan tokens' } := by
    simp only [bodyContext, unitContext, parted.classNames_eq, alike.classes]
  have rests := rests_outline env tokens
  have rests' : (outline env tokens').state.Rests (outline env tokens).state.scopes.functions
      (outline env tokens).state.scopes.natives :=
    ⟨(rests_outline env tokens').toIdle, alike.scopes.functions.symm, alike.scopes.natives.symm⟩
  refine List.forall₂_iff_zip.2 ⟨alike.headers.length_eq, fun {g g'} both => ?_⟩
  obtain ⟨mem, mem'⟩ := List.of_mem_zip both
  have pair : g.Alike R (Isolated R i) g' := List.forall₂_zip alike.headers both
  rw [bodyError?_steady mem (by omega : tokens.length < n), bodyError?_steady mem' (by omega : tokens'.length < n),
    contexts]
  refine ⟨pair.id.symm, ?_⟩
  exact failure?_isolated pair (Nat.succ_ne_zero _) stop rests rests'

theorem OnlyBody.refl (env : Environment) (i : FunctionId) (tokens : List Token) :
    OnlyBody Eq env i tokens (isolate i (outline env tokens).headers tokens) := by
  obtain ⟨_, cut, -⟩ := cut_outline env tokens
  refine ⟨List.forall₂_same.2 fun t _ => .mk t.kind t.text rfl, ?_⟩
  rw [endSpan, endSpan, cut.getLast?_isolate]

theorem bodyError?_eq_none {h : Header} (mem : h ∈ (outline env tokens).headers) : bodyError? env tokens h = none ↔
    ∃ f, (compileBody (bodyContext env tokens) h (outline env tokens).state).1 = .ok f := by
  have rests := rests_outline env tokens
  have reported := (rests.compileBody (bodyContext env tokens) (braced_outline env tokens h mem)).2
  unfold bodyError? failure?
  generalize compileBody _ h _ = r at reported ⊢
  obtain ⟨e | f, _⟩ := r
  · obtain ⟨e, rfl⟩ := Option.isSome_iff_exists.1 (reported e rfl)
    exact ⟨nofun, nofun⟩
  · exact ⟨fun _ => ⟨f, rfl⟩, fun _ => rfl⟩

theorem nodup_ids (declared : Declared env tokens) : ((outline env tokens).headers.map Header.id).Nodup := by
  have positions := (lists_outline declared.outlined).positions
  have range : (outline env tokens).headers.map Header.id = List.range (outline env tokens).headers.length := by
    refine List.ext_getElem (by simp) fun k hk _ => ?_
    rw [List.getElem_map, List.getElem_range]
    exact positions k _ (List.getElem?_eq_getElem _)
  exact range ▸ List.nodup_range

theorem bodyError?_isolated (declared : Declared env tokens) {h : Header} (mem : h ∈ (outline env tokens).headers)
    (only : OnlyBody R env h.id tokens tokens') : ∃ h' ∈ (outline env tokens').headers, h'.id = h.id ∧
      Option.Rel (CompileError.Alike R) (bodyError? env tokens h) (bodyError? env tokens' h') := by
  obtain ⟨-, each⟩ := bodyErrors_isolated declared only
  obtain ⟨h', both⟩ := exists_mem_zip each.length_eq mem
  obtain ⟨id, same⟩ := List.forall₂_zip each both
  exact ⟨h', (List.of_mem_zip both).2, id, (if_pos rfl).mp same⟩

theorem diagnoseTokens_isolated (declared : Declared env tokens) {h : Header} (mem : h ∈ (outline env tokens).headers)
    (distinct : ∀ g ∈ (outline env tokens).headers, g.id ≠ h.id → g.Distinct)
    (only : OnlyBody R env h.id tokens tokens') :
    (bodyError? env tokens h).toList.Forall₂ (CompileError.Alike R) (diagnoseTokens env tokens') := by
  obtain ⟨diagnosed, each⟩ := bodyErrors_isolated declared only
  have each := (List.forall₂_and_left _ _).2 ⟨distinct, each⟩
  rw [diagnosed]
  refine (filterMap_isolated (each.imp fun g g' both => ?_) (nodup_ids declared)).2 h mem rfl
  obtain ⟨distinct, -, same⟩ := both
  split
  case isTrue here => exact (if_pos here).mp same
  case isFalse other => exact (if_neg other).mp same (distinct other)

/-- What is diagnosed of `h` does not depend on the other bodies: it has the same error in a unit that keeps no other
body. There it is alone if the parameters of the other functions have different names; with two of one name a function
fails even with an empty body. -/
structure Separate (env : Environment) (tokens : List Token) (h : Header) : Prop where
  compiled : bodyError? env tokens h = none ↔
    ∃ f, (compileBody (bodyContext env tokens) h (outline env tokens).state).1 = .ok f
  kept : ∀ {R tokens'}, OnlyBody R env h.id tokens tokens' →
    diagnoseTokens env tokens' = (outline env tokens').headers.filterMap (bodyError? env tokens') ∧
    ∃ h' ∈ (outline env tokens').headers, h'.id = h.id ∧
      Option.Rel (CompileError.Alike R) (bodyError? env tokens h) (bodyError? env tokens' h')
  alone : (∀ g ∈ (outline env tokens).headers, g.id ≠ h.id → g.Distinct) →
    diagnoseTokens env (isolate h.id (outline env tokens).headers tokens) = (bodyError? env tokens h).toList ∧
    ∀ {R tokens'}, OnlyBody R env h.id tokens tokens' →
      (bodyError? env tokens h).toList.Forall₂ (CompileError.Alike R) (diagnoseTokens env tokens')

theorem separate (declared : Declared env tokens) {h : Header} (mem : h ∈ (outline env tokens).headers) :
    Separate env tokens h := by
  refine ⟨bodyError?_eq_none mem, fun only => ?_, fun distinct => ⟨?_, fun only => ?_⟩⟩
  · exact ⟨(bodyErrors_isolated declared only).1, bodyError?_isolated declared mem only⟩
  · have same := diagnoseTokens_isolated declared mem distinct (.refl env h.id tokens)
    exact (List.forall₂_eq_eq_eq ▸ same.imp fun _ _ => CompileError.Alike.eq).symm
  · exact diagnoseTokens_isolated declared mem distinct only

/-- A unit is compiled when nothing is diagnosed, else compiling ends with what is diagnosed first. Of a unit that is
declared the errors of the bodies are diagnosed in their order, each as in a unit that has no other body. -/
theorem diagnose_each (env : Environment) (tokens : List Token) :
    (∀ id e, ofTokens id env tokens = .error e ↔ (diagnoseTokens env tokens).head? = some e) ∧
      (∀ id, (∃ p, ofTokens id env tokens = .ok p) ↔ diagnoseTokens env tokens = []) ∧
      (Declared env tokens →
        diagnoseTokens env tokens = (outline env tokens).headers.filterMap (bodyError? env tokens) ∧
          ∀ h ∈ (outline env tokens).headers, Separate env tokens h) := by
  refine ⟨fun id e => ?_, fun id => ?_, fun declared => ⟨?_, fun h mem => separate declared mem⟩⟩
  · obtain ⟨⟨p, ok⟩, none⟩ | ⟨e', error, head⟩ := head?_diagnoseTokens id env tokens
    · rw [ok, none]
      exact ⟨nofun, nofun⟩
    · rw [error, head]
      exact ⟨fun same => congrArg some (Except.error.inj same),
        fun same => congrArg Except.error (Option.some.inj same)⟩
  · obtain ⟨ok, none⟩ | ⟨e', error, head⟩ := head?_diagnoseTokens id env tokens
    · exact ⟨fun _ => none, fun _ => ok⟩
    · rw [error]
      refine ⟨nofun, fun none => ?_⟩
      rw [none] at head
      cases head
  · exact diagnoseTokens_eq declared.readable declared.outlined

/-!
Two of three functions have an error, one of them in an open loop.
-/
namespace Faulty

def unit : List Token := Lexer.tokens
  "class C { int x; } int one(C c) { while (true) { c = m; } } int two() { return 2; } void three() { break; }"

def only (i : FunctionId) : List Token := isolate i (outline .empty unit).headers unit

theorem diagnose_each_faulty : Declared .empty unit ∧ ∃ e e', e.cause = .undefinedSymbol ∧ e'.cause = .outsideLoop ∧
    ofTokens "faulty" .empty unit = .error e ∧ diagnoseTokens .empty unit = [e, e'] ∧
    diagnoseTokens .empty (only 0) = [e] ∧ diagnoseTokens .empty (only 1) = [] ∧
    diagnoseTokens .empty (only 2) = [e'] := by
  obtain ⟨readable, outlined, clear, distinct, causes⟩ : badToken? unit = none ∧ (outline .empty unit).error = none ∧
      (∀ h ∈ (outline .empty unit).headers, ∀ t ∈ h.block, t.isWord .classWord = false) ∧
      (∀ h ∈ (outline .empty unit).headers, (h.params.map fun p => p.1.text).Nodup) ∧
      (outline .empty unit).headers.map (fun h => (h.id, (bodyError? .empty unit h).map CompileError.cause)) =
        [(0, some .undefinedSymbol), (1, none), (2, some .outsideLoop)] := by decide +kernel
  have declared : Declared .empty unit := ⟨readable, outlined, clear⟩
  obtain ⟨fails, -, all⟩ := diagnose_each .empty unit
  obtain ⟨diagnosed, separate⟩ := all declared
  have alone (h : Header) (mem : h ∈ (outline .empty unit).headers) :
      diagnoseTokens .empty (only h.id) = (bodyError? .empty unit h).toList :=
    ((separate h mem).alone fun g mem _ => distinct g mem).1
  obtain ⟨f, g, h, headers⟩ : ∃ f g h, (outline .empty unit).headers = [f, g, h] :=
    List.length_eq_three.1 (by rw [← List.length_map, causes]; rfl)
  rw [headers] at causes diagnosed alone
  simp only [List.map_cons, List.map_nil, List.cons.injEq, Prod.mk.injEq, Option.map_eq_some_iff,
    Option.map_eq_none_iff, and_true] at causes
  obtain ⟨⟨first, e, he, cause⟩, ⟨second, hn⟩, third, e', he', cause'⟩ := causes
  simp only [List.filterMap_cons, List.filterMap_nil, he, hn, he'] at diagnosed
  have one := alone f (by simp)
  have two := alone g (by simp)
  have three := alone h (by simp)
  rw [first, he] at one
  rw [second, hn] at two
  rw [third, he'] at three
  have failed : ofTokens "faulty" .empty unit = .error e := (fails "faulty" e).2 (congrArg List.head? diagnosed)
  exact ⟨declared, e, e', cause, cause', failed, diagnosed, one, two, three⟩

end Faulty
end Program
end Tickwise
