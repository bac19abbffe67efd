import Tickwise.Proofs.Compile.Definitions
set_option autoImplicit false

/-!
# Well-formed programs

In a compiled program every instruction and every variable has a number of its own, and what an instruction
refers to exists: the variable in its function, the function that it calls, and the statement behind a label.
-/
namespace Tickwise

open Compile

structure Instr.Refers (p : Program) (f : Function) (i : Instr) : Prop where
  root : ∀ place ∈ i.place?, place.root ∈ f.vars
  callee : ∀ {id args ret}, i.form = .call (.user id) args ret →
    ∃ g, p.function? id = some g ∧ g.params.length = args.length
  /-- The label without a value is the default. -/
  labels : ∀ {label value cases body}, i.form = .switch label value cases body →
    (cases.map Case.value).Nodup ∧ ∀ c ∈ cases, c.start ≤ body.length

/-- The numbers in a program are distinct, and what its instructions refer to exists. -/
structure Program.WellFormed (p : Program) : Prop where
  positions : ∀ {k : Nat} {f : Function}, p.functions[k]? = some f → f.id = k
  nodes : ((p.functions.flatMap (·.body.all)).map Instr.id).Nodup
  counted : ∀ f ∈ p.functions, ∀ i ∈ f.body.all, i.id < p.nodeCount
  vars : (p.functions.flatMap Function.vars).Nodup
  nonzero : 0 ∉ p.functions.flatMap Function.vars
  refers : ∀ f ∈ p.functions, ∀ i ∈ f.body.all, i.Refers p f

theorem Function.Made.refers {P : Places} {known : Signature → Prop} {m m' : Next} {p : Program} {f : Function}
    (h : f.Made (compiling P known m.var) m m')
    (calls : ∀ s, known s → ∃ g, p.function? s.id = some g ∧ g.params.length = s.params.length) :
    ∀ i ∈ f.body.all, i.Refers p f := by
  intro i hi
  have regular := (h.regular i hi).2
  have own {x : VarId} (hx : (compiling P known m.var).Declares m' x) : x ∈ f.vars :=
    hx.elim False.elim fun range => h.covers x range.1 range.2
  obtain ⟨id, span, form⟩ := i
  refine ⟨fun place hp => ?_, fun {callee args ret} hf => ?_, fun hf => ?_⟩
  · cases form with
    | load | store | step =>
      cases hp
      exact own regular
    | _ => cases hp
  · cases hf
    obtain ⟨s, hs, rfl, arity⟩ := regular
    obtain ⟨g, found, same⟩ := calls s hs
    exact ⟨g, found, same.trans arity⟩
  · cases hf
    exact regular

namespace Program

variable {id : String} {env : Environment} {tokens : List Token} {p : Program}

/-- The functions of a program are those that its source defines, and it is well-formed. -/
theorem wellFormed_ofTokens (h : ofTokens id env tokens = .ok p) :
    p.functions.map (fun f => (f.name, f.span)) = (definedNames 0 tokens).map Token.named ∧ p.WellFormed := by
  let places : Places := ⟨fun _ => True, endSpan tokens⟩
  let known (s : Signature) : Prop := s ∈ (outline env tokens).headers.map Header.signature
  have knows (fine : (outline env tokens).error = none) : ∀ s ∈ (outline env tokens).state.scopes.functions, known s := by
    rw [(lists_outline fine).functions]
    exact fun _ hs => hs
  obtain ⟨fine, follows, m, made, count⟩ := functions_of_ofTokens (P := places) (fun _ _ => trivial) rfl knows h
  have lists := lists_outline fine
  have calls (s : Signature) (hs : known s) : ∃ g, p.function? s.id = some g ∧ g.params.length = s.params.length := by
    obtain ⟨h, hh, rfl⟩ := List.mem_map.1 hs
    obtain ⟨k, hk⟩ := List.mem_iff_getElem?.1 hh
    obtain ⟨g, found, same⟩ := getElem?_of_forall₂ follows.flip hk
    refine ⟨g, ?_, same.arity.trans (List.length_map _).symm⟩
    rw [Header.signature, lists.positions k h hk]
    exact found
  refine ⟨names_ofTokens h, fun {k f} hf => ?_, made.ids.nodup, fun f hf i hi => ?_, made.vars.nodup, fun zero => ?_, fun f hf => ?_⟩
  · obtain ⟨h, hh, same⟩ := getElem?_of_forall₂ follows hf
    rw [same.id, lists.positions k h hh]
  · rw [count]
    exact (made.ids.range i.id (List.mem_map_of_mem (List.mem_flatMap.2 ⟨f, hf, hi⟩))).2
  · exact absurd (made.vars.range 0 zero).1 (Nat.not_succ_le_zero 0)
  · obtain ⟨m₁, m₂, each⟩ := made.each f hf
    exact each.refers calls

/-!
A function that is called from a `switch` in the next one.
-/
namespace Calling

def name (text : String) : Token := ⟨.identifier, text, .empty⟩

def word (w : Keyword) : Token := ⟨.keyword w, "", .empty⟩

def op (o : Operator) : Token := ⟨.operator o, "", .empty⟩

def callee : List Token :=
  [word .intWord, name "one", op .leftParen, word .intWord, name "n", op .rightParen,
   op .leftBrace, word .returnWord, name "n", op .semicolon, op .rightBrace]

def caller : List Token :=
  [word .voidWord, name "main", op .leftParen, op .rightParen, op .leftBrace,
   word .switchWord, op .leftParen, name "one", op .leftParen, ⟨.integer, "1", .empty⟩, op .rightParen, op .rightParen,
   op .leftBrace, word .defaultWord, op .colon, op .rightBrace, op .rightBrace]

theorem wellFormed_ofTokens_calling : ∃ p, ofTokens "calling" .empty (callee ++ caller) = .ok p ∧
    p.functions.map (fun f => (f.name, f.span)) = [("one", Span.empty), ("main", Span.empty)] ∧ p.WellFormed := by
  have compiled : (ofTokens "calling" .empty (callee ++ caller)).isOk = true := by decide +kernel
  cases h : ofTokens "calling" .empty (callee ++ caller) with
  | error e =>
    rw [h] at compiled
    cases compiled
  | ok p =>
    obtain ⟨names, wellFormed⟩ := wellFormed_ofTokens h
    exact ⟨p, rfl, names.trans (by decide), wellFormed⟩

end Calling
end Program
end Tickwise
