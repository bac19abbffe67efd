import Tickwise.Compile.Unit
import Tickwise.Proofs.Compile.Comparison
import Tickwise.Proofs.Compile.ReadExpressions
import Tickwise.Proofs.Compile.Successes
set_option autoImplicit false

/-!
# Precedence of operators

A chain of operators is compiled to a tree that has the operands and operators of the source in their order, and in
which each operator is grouped by how tightly it binds.
-/
namespace Tickwise

open Compile Compiler

namespace Compile

def Binding.StaysBefore (inner outer : Binding) : Prop :=
  outer.precedence < inner.precedence ∨ inner.precedence = outer.precedence ∧ inner.fromRight = false

def Binding.StaysBehind (inner outer : Binding) : Prop :=
  outer.precedence < inner.precedence ∨
    inner.precedence = outer.precedence ∧ inner.fromRight = true ∧ inner.connective = .binary .pow

/-- Operands with operators between them, as they are grouped. -/
inductive Chain
  | operand (e : Operand)
  | join (span : Span) (op : Operator) (left right : Chain)

namespace Chain

def first : Chain → Operand
  | operand e => e
  | join _ _ left _ => left.first

def others : Chain → List (Span × Operator × Operand)
  | operand _ => []
  | join span op left right => left.others ++ (span, op, right.first) :: right.others

def root? : Chain → Option Binding
  | operand _ => none
  | join _ op _ _ => binding? op

theorem exists_of_root? {c : Chain} {b : Binding} (h : b ∈ c.root?) : ∃ op, binding? op = some b := by
  cases c with
  | operand e => cases h
  | join _ op _ _ => exact ⟨op, h⟩

inductive Grouped : Chain → Prop
  | operand (e : Operand) : Grouped (.operand e)
  | join {span : Span} {op : Operator} {left right : Chain} {b : Binding} (bound : binding? op = some b)
      (before : ∀ l ∈ left.root?, l.StaysBefore b) (behind : ∀ r ∈ right.root?, r.StaysBehind b)
      (first : Grouped left) (second : Grouped right) : Grouped (.join span op left right)

/-- The instruction is the tree of the chain, but for conversions of operands. -/
inductive Builds : Chain → Instr → Prop
  | operand (e : Operand) : Builds (.operand e) e.instr
  | convert {c : Chain} {i j : Instr} (built : Builds c i) (form : j.form = .convert .float i) : Builds c j
  | binary {id : NodeId} {span : Span} {op : Operator} {b : Binding} {base : BinaryOp} {ty : Ty} {left right : Chain}
      {l r : Instr} (bound : binding? op = some b) (does : b.connective = .binary base) (first : Builds left l)
      (second : Builds right r) : Builds (.join span op left right) ⟨id, span, .binary base ty l r⟩
  | logical {id : NodeId} {span : Span} {op : Operator} {b : Binding} {isAnd : Bool} {left right : Chain}
      {l r : Instr} (bound : binding? op = some b) (does : b.connective = .logical isAnd) (first : Builds left l)
      (second : Builds right r) : Builds (.join span op left right) ⟨id, span, .logical isAnd l r⟩

end Chain
end Compile

def ScopeStack.within : (frames : Nat) → ScopeStack → ScopeStack
  | 0, s => s
  | frames + 1, s => within frames (s.push false)

namespace Compiler

def ReadsUnary (ctx : Context) (scopes : ScopeStack) (tokens : List Token) (e : Operand) (rest : List Token) : Prop :=
  ∃ room frames node node',
    (Level.ofRoom room).unary ctx ⟨tokens, scopes.within frames, node⟩ =
      (some e, ⟨rest, scopes.within frames, node'⟩)

inductive ReadsChain (ctx : Context) (scopes : ScopeStack) :
    List Token → Operand → List (Span × Operator × Operand) → List Token → Prop
  | last {tokens rest : List Token} {e : Operand} (read : ReadsUnary ctx scopes tokens e rest) :
      ReadsChain ctx scopes tokens e [] rest
  | more {tokens mid rest : List Token} {e next : Operand} {op : Operator} {text : String} {span : Span} {b : Binding}
      {others : List (Span × Operator × Operand)}
      (read : ReadsUnary ctx scopes tokens e (⟨.operator op, text, span⟩ :: mid)) (bound : binding? op = some b)
      (chain : ReadsChain ctx scopes mid next others rest) :
      ReadsChain ctx scopes tokens e ((span, op, next) :: others) rest

/-- No operator that binds tighter is next. -/
def Stops (floor : Nat) (tokens : List Token) : Prop :=
  ∀ op text span rest b, tokens = ⟨.operator op, text, span⟩ :: rest → binding? op = some b → b.precedence ≤ floor

variable {ctx : Context} {scopes : ScopeStack} {tokens mid rest : List Token} {e next : Operand}
  {others more : List (Span × Operator × Operand)}

theorem ReadsChain.append {op : Operator} {text : String} {span : Span} {b : Binding}
    (h : ReadsChain ctx scopes tokens e others (⟨.operator op, text, span⟩ :: mid)) (bound : binding? op = some b)
    (h' : ReadsChain ctx scopes mid next more rest) :
    ReadsChain ctx scopes tokens e (others ++ (span, op, next) :: more) rest := by
  generalize up : ⟨.operator op, text, span⟩ :: mid = front at h
  induction h with
  | last read => exact .more (up ▸ read) bound h'
  | more read bound' _ ih => exact .more read bound' (ih up)

theorem ReadsChain.unframed (h : ReadsChain ctx (scopes.push false) tokens e others rest) :
    ReadsChain ctx scopes tokens e others rest := by
  have unary {tokens rest : List Token} {e : Operand} (h : ReadsUnary ctx (scopes.push false) tokens e rest) :
      ReadsUnary ctx scopes tokens e rest := by
    obtain ⟨room, frames, node, node', read⟩ := h
    exact ⟨room, frames + 1, node, node', read⟩
  induction h with
  | last read => exact .last (unary read)
  | more read bound _ ih => exact .more (unary read) bound ih

theorem some_of_eatBinding {floor : Nat} {s s' : State} {r : Option (Span × Binding)}
    (h : eatBinding floor ctx s = (some r, s')) :
    (r = none ∧ s' = s ∧ Stops floor s.rest) ∨ ∃ op text span b, r = some (span, b) ∧
      s.rest = ⟨.operator op, text, span⟩ :: s'.rest ∧ binding? op = some b ∧ floor < b.precedence ∧ s' = s.behind := by
  obtain ⟨next, _, peeked, answer⟩ := some_of_bind h
  cases peeked
  rcases front : s.rest with _ | ⟨⟨kind, text, span⟩, rest⟩
  · rw [front] at answer
    cases answer
    exact .inl ⟨rfl, rfl, nofun⟩
  rw [front] at answer
  cases kind with
  | operator op =>
    cases bound : binding? op with
    | none =>
      simp only [List.head?_cons, bound] at answer
      cases answer
      refine .inl ⟨rfl, rfl, fun _ _ _ _ _ same bound' => ?_⟩
      cases same
      cases bound.symm.trans bound'
    | some b =>
      simp only [List.head?_cons, bound] at answer
      split at answer
      case isTrue tighter =>
        obtain ⟨_, _, read, answer⟩ := some_of_bind answer
        cases read
        cases answer
        refine .inr ⟨op, text, span, b, rfl, ?_, bound, tighter, rfl⟩
        change _ = _ :: s.rest.tail
        rw [front]
        rfl
      case isFalse looser =>
        cases answer
        refine .inl ⟨rfl, rfl, fun _ _ _ _ _ same bound' => ?_⟩
        cases same
        cases bound.symm.trans bound'
        omega
  | _ =>
    cases answer
    refine .inl ⟨rfl, rfl, fun _ _ _ _ _ same => ?_⟩
    cases same

theorem some_of_widen {target : Ty} {s s' : State} {i : Instr} (h : widen e target ctx s = (some i, s')) :
    (i = e.instr ∨ i.form = .convert .float e.instr) ∧ s'.rest = s.rest := by
  unfold widen at h
  split at h <;> cases h
  · exact ⟨.inr rfl, rfl⟩
  · exact ⟨.inl rfl, rfl⟩

theorem some_of_operandType {op : BinaryOp} {left right ty : Ty} {span : Span} {s s' : State}
    (h : operandType op left right span ctx s = (some ty, s')) : s' = s := by
  unfold operandType at h
  split at h
  · cases h
  · cases known : operandType? op left right with
    | none =>
      rw [known] at h
      cases h
    | some ty =>
      rw [known] at h
      cases h
      rfl

theorem builds_widened {c : Chain} {target : Ty} {s s' : State} {i : Instr} (built : c.Builds e.instr)
    (h : widen e target ctx s = (some i, s')) : c.Builds i := by
  rcases (some_of_widen h).1 with rfl | form
  · exact built
  · exact .convert built form

theorem builds_of_connect {op : Operator} {b : Binding} {span : Span} {left right : Operand} {cl cr : Chain}
    {s s' : State} (bound : binding? op = some b) (first : cl.Builds left.instr) (second : cr.Builds right.instr)
    (h : connect span b.connective left right ctx s = (some e, s')) :
    (Chain.join span op cl cr).Builds e.instr ∧ s'.rest = s.rest := by
  cases does : b.connective with
  | binary base =>
    rw [does] at h
    obtain ⟨ty, s₁, typed, h₁⟩ := some_of_bind h
    obtain ⟨l, s₂, widenedL, h₂⟩ := some_of_bind h₁
    obtain ⟨r, s₃, widenedR, h₃⟩ := some_of_bind h₂
    cases h₃
    refine ⟨.binary bound does (builds_widened first widenedL) (builds_widened second widenedR), ?_⟩
    change s₃.rest = s.rest
    rw [(some_of_widen widenedR).2, (some_of_widen widenedL).2, some_of_operandType typed]
  | logical isAnd =>
    rw [does] at h
    unfold connect combineLogical at h
    dsimp only at h
    split at h
    · cases h
    · split at h
      · cases h
      · cases h
        exact ⟨.logical bound does first second, rfl⟩

end Compiler

namespace Compile.Binding

variable {op op' : Operator} {b b' : Binding}

theorem fromRight_iff (bound : binding? op = some b) : b.fromRight = true ↔ b.precedence = 11 := by
  cases op <;> cases bound <;> decide

theorem pow_of_fromRight (bound : binding? op = some b) (h : b.fromRight = true) : b.connective = .binary .pow := by
  cases op <;> cases bound <;> first | rfl | cases h

theorem staysBehind (bound : binding? op = some b) (bound' : binding? op' = some b')
    (h : b.rightFloor < b'.precedence) : b'.StaysBehind b := by
  unfold rightFloor at h
  cases right : b.fromRight with
  | false =>
    rw [right] at h
    exact .inl h
  | true =>
    have tightest := (fromRight_iff bound).1 right
    rw [right] at h
    rcases Nat.lt_or_ge b.precedence b'.precedence with lt | ge
    · exact .inl lt
    · have same : b'.precedence = b.precedence := by
        change b.precedence - 1 < _ at h
        omega
      have right' := (fromRight_iff bound').2 (same.trans tightest)
      exact .inr ⟨same, right', pow_of_fromRight bound' right'⟩

theorem staysBefore (positive : 0 < b.precedence) (h : b'.precedence ≤ b.rightFloor) : b.StaysBefore b' := by
  unfold rightFloor at h
  cases right : b.fromRight with
  | false =>
    rw [right] at h
    rcases Nat.lt_or_ge b'.precedence b.precedence with lt | ge
    · exact .inl lt
    · exact .inr ⟨Nat.le_antisymm ge h, right⟩
  | true =>
    rw [right] at h
    change _ ≤ b.precedence - 1 at h
    exact .inl (by omega)

end Compile.Binding

theorem Level.reading_ofRoom (room : Nat) : (ofRoom room).Reading := by
  induction room with
  | zero => exact reading_exhausted
  | succ room ih => exact ih.outward

namespace Compiler

variable {ctx : Context}

/-- What the routine for operators of more than a precedence has read, and the operand that it answers. -/
def Groups (ctx : Context) (floor : Nat) (s : State) (e : Operand) (rest : List Token) : Prop :=
  ∃ c : Chain, c.Builds e.instr ∧ c.Grouped ∧ ReadsChain ctx s.scopes s.rest c.first c.others rest ∧
    (∀ b ∈ c.root?, floor < b.precedence) ∧ Stops floor rest

theorem groups_of_binaryBody {lv : Level} {floor : Nat} {s s' : State} {e : Operand} (reading : lv.Reading)
    (unary : ∀ {s s' : State} {e : Operand}, lv.unary ctx s = (some e, s') → ReadsUnary ctx s.scopes s.rest e s'.rest)
    (binary : ∀ {floor s s' e}, lv.binary floor ctx s = (some e, s') → Groups ctx floor s e s'.rest)
    (h : binaryBody lv floor ctx s = (some e, s')) : Groups ctx floor s e s'.rest := by
  obtain ⟨first, s₁, readFirst, run⟩ := some_of_bind h
  -- The operand so far is a chain read from the start, and no operator that its root would leave to the right is next.
  let Held (left : Operand) (s₂ : State) : Prop := s₂.scopes = s.scopes ∧ ∃ c : Chain, c.Builds left.instr ∧ c.Grouped ∧
    ReadsChain ctx s.scopes s.rest c.first c.others s₂.rest ∧
    ∀ b ∈ c.root?, floor < b.precedence ∧ Stops b.rightFloor s₂.rest
  have start : Held first s₁ :=
    ⟨(reading.unary.scopes readFirst), .operand first, .operand first, .operand first, .last (unary readFirst),
      fun _ none => (Option.not_mem_none _ none).elim⟩
  refine some_of_loop (fun read s₂ e s' => Held read.1 s₂ → Groups ctx floor s e s'.rest) ?_ run start
  rintro ⟨left, chained⟩ s₂ r s₃ turn
  obtain ⟨next, s₄, eaten, turn₁⟩ := some_of_bind turn
  clear turn
  rcases some_of_eatBinding eaten with ⟨rfl, rfl, stops⟩ | ⟨op, text, span, b, rfl, front, bound, tighter, rfl⟩
  · cases turn₁
    rintro ⟨_, c, built, grouped, read, root⟩
    exact ⟨c, built, grouped, read, fun b hb => (root b hb).1, stops⟩
  dsimp only at turn₁
  split at turn₁
  · cases turn₁
  obtain ⟨right, s₅, readRight, turn₂⟩ := some_of_bind turn₁
  obtain ⟨joined, s₆, connected, turn₃⟩ := some_of_bind turn₂
  cases turn₃
  rintro e s' continued ⟨scopes, c, built, grouped, read, root⟩
  obtain ⟨c', built', grouped', read', root', stops'⟩ := binary readRight
  obtain ⟨joins, same⟩ := builds_of_connect bound built built' connected
  have unchanged : s₅.scopes = s.scopes := (reading.binary _ |>.scopes readRight).trans scopes
  rw [show s₂.behind.scopes = s.scopes from scopes] at read'
  refine continued ⟨(Reads.connect _ _ _ _ |>.scopes connected).trans unchanged, .join span op c c', joins, ?_, ?_, ?_⟩
  · refine .join bound (fun l hl => ?_) (fun r hr => ?_) grouped grouped'
    · obtain ⟨above, stops⟩ := root l hl
      exact Binding.staysBefore (Nat.zero_lt_of_lt above) (stops _ _ _ _ _ front bound)
    · obtain ⟨op', bound'⟩ := Chain.exists_of_root? hr
      exact Binding.staysBehind bound bound' (root' r hr)
  · rw [front] at read
    rw [same]
    exact read.append bound read'
  · intro b' hb'
    cases bound.symm.trans hb'
    rw [same]
    exact ⟨tighter, stops'⟩

/-- Operators are grouped by precedence, and nothing that was read is lost or moved. -/
theorem groups_of_binary {room floor : Nat} {s s' : State} {e : Operand}
    (h : (Level.ofRoom room).binary floor ctx s = (some e, s')) : Groups ctx floor s e s'.rest := by
  induction room generalizing floor s s' e with
  | zero =>
    obtain ⟨_, _, _, failed⟩ := some_of_bind h
    cases failed
  | succ room ih =>
    change inFrame false (binaryBody (Level.ofRoom room) floor) ctx s = _ at h
    obtain ⟨s₁, within, rfl⟩ := some_of_inFrame h
    have reading := Level.reading_ofRoom room
    have unary {s s' : State} {e : Operand} (read : (Level.ofRoom room).unary ctx s = (some e, s')) :
        ReadsUnary ctx s.scopes s.rest e s'.rest := by
      refine ⟨room, 0, s.nextNode, s'.nextNode, read.trans ?_⟩
      rw [← reading.unary.scopes read]
      rfl
    obtain ⟨c, built, grouped, read, root, stops⟩ := groups_of_binaryBody reading unary ih within
    exact ⟨c, built, grouped, read.unframed, root, stops⟩

namespace Groups

def source : String := "1 - 2 - 3 ** 4 ** 5 < 6;"

def begun : State := ⟨Lexer.tokens source, ⟨[⟨true, [], none, none⟩], none, [], .empty, 1⟩, 0⟩

def lit (id : NodeId) (place : UInt32) (n : Int32) : Instr := .mk id ⟨place, place + 1⟩ (.literal (Slot.ofInt n))

def tree : Instr :=
  .mk 10 ⟨20, 21⟩ (.binary .lt .int
    (.mk 8 ⟨6, 7⟩ (.binary .sub .int
      (.mk 2 ⟨2, 3⟩ (.binary .sub .int (lit 0 0 1) (lit 1 4 2)))
      (.mk 7 ⟨10, 12⟩ (.binary .pow .int (lit 3 8 3) (.mk 6 ⟨15, 17⟩ (.binary .pow .int (lit 4 13 4) (lit 5 18 5)))))))
    (lit 9 22 6))

theorem read_tree : ∃ e s', (Level.ofRoom 9).binary 0 (unitContext .empty (Lexer.tokens source)) begun = (some e, s') ∧
    e.instr = tree ∧ s'.rest.map Token.text = [";"] := by
  have made : ((Level.ofRoom 9).binary 0 (unitContext .empty (Lexer.tokens source)) begun).1.map Operand.instr =
      some tree := Instr.eq_some_of_same 20 (by decide +kernel)
  have rest : ((Level.ofRoom 9).binary 0 (unitContext .empty (Lexer.tokens source)) begun).2.rest.map Token.text =
      [";"] := by decide +kernel
  generalize (Level.ofRoom 9).binary _ _ _ = r at made rest ⊢
  obtain ⟨e?, s'⟩ := r
  obtain ⟨e, rfl, same⟩ := Option.map_eq_some_iff.1 made
  exact ⟨e, s', rfl, same, rest⟩

theorem groups_of_binary_powers :
    ∃ e s', (Level.ofRoom 9).binary 0 (unitContext .empty (Lexer.tokens source)) begun = (some e, s') ∧
      e.instr = tree ∧ s'.rest.map Token.text = [";"] ∧
      Groups (unitContext .empty (Lexer.tokens source)) 0 begun e s'.rest := by
  obtain ⟨e, s', read, same, rest⟩ := read_tree
  exact ⟨e, s', read, same, rest, groups_of_binary read⟩

end Groups
end Compiler
end Tickwise
