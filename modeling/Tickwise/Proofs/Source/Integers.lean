import Mathlib.Data.Int.ModEq
import Mathlib.Data.Nat.Digits.Defs
import Tickwise.Compile.Expression
import Tickwise.Proofs.Source.Partition
set_option autoImplicit false

/-!
# Integer literals

The numerals that the lexer takes for integers have no sign, which the reader of integer literals would accept. Such a
numeral stands for a number, however many digits it has, and is read as the 32-bit integer congruent to it unless the
number has more bits.
-/
namespace Tickwise

namespace Integer

/-- A character is the digit of a value in a base; beyond nine, letters of either case. -/
def IsDigit (base : Nat) (c : Char) (d : Nat) : Prop := d < base ∧ (c = d.digitChar ∨ c = d.digitChar.toUpper)

instance (base : Nat) (c : Char) (d : Nat) : Decidable (IsDigit base c d) := inferInstanceAs (Decidable (_ ∧ _))

/-- A numeral stands for a number: decimal digits, or hexadecimal ones after `0x`. -/
inductive Denotes : (numeral : List Char) → (n : Nat) → Prop
  | decimal {cs : List Char} {ds : List Nat} (some : cs ≠ []) (digits : List.Forall₂ (IsDigit 10) cs ds) :
      Denotes cs (Nat.ofDigits 10 ds.reverse)
  | hexadecimal {x : Char} {cs : List Char} {ds : List Nat} (mark : x = 'x' ∨ x = 'X') (some : cs ≠ [])
      (digits : List.Forall₂ (IsDigit 16) cs ds) : Denotes ('0' :: x :: cs) (Nat.ofDigits 16 ds.reverse)

theorem forall_ascii {P : Char → Prop} (h : ∀ n < 128, P (Char.ofNat n)) {c : Char} (ascii : c.toNat < 128) : P c := by
  have held := h c.toNat ascii
  rwa [Char.ofNat_toNat] at held

theorem hexDigit?_eq_some_iff {c : Char} {d : Nat} : hexDigit? c = some d ↔ IsDigit 16 c d := by
  have digits : ∀ n < 128, ∀ d ∈ hexDigit? (Char.ofNat n), IsDigit 16 (Char.ofNat n) d := by decide +kernel
  have back : ∀ d < 16, hexDigit? d.digitChar = some d ∧ hexDigit? d.digitChar.toUpper = some d := by decide +kernel
  constructor
  · intro h
    suffices ascii : c.toNat < 128 from @forall_ascii (fun c => ∀ d ∈ hexDigit? c, IsDigit 16 c d) digits c ascii d h
    unfold hexDigit? at h
    split_ifs at h with number lower upper
    · exact Nat.lt_of_le_of_lt number.2 (by decide)
    · exact Nat.lt_of_le_of_lt lower.2 (by decide)
    · exact Nat.lt_of_le_of_lt upper.2 (by decide)
  · rintro ⟨small, rfl | rfl⟩
    · exact (back d small).1
    · exact (back d small).2

theorem digit?_eq_some_iff {c : Char} {d : Nat} : digit? c = some d ↔ IsDigit 10 c d := by
  have digits : ∀ n < 128, ∀ d ∈ digit? (Char.ofNat n), IsDigit 10 (Char.ofNat n) d := by decide +kernel
  have back : ∀ d < 10, digit? d.digitChar = some d ∧ digit? d.digitChar.toUpper = some d := by decide +kernel
  constructor
  · intro h
    suffices ascii : c.toNat < 128 from @forall_ascii (fun c => ∀ d ∈ digit? c, IsDigit 10 c d) digits c ascii d h
    unfold digit? at h
    split_ifs at h with number
    have high : c.val ≤ 57 := by simpa [Char.isDigit] using (Bool.and_eq_true_iff.1 number).2
    exact Nat.lt_of_le_of_lt high (by decide)
  · rintro ⟨small, rfl | rfl⟩
    · exact (back d small).1
    · exact (back d small).2

section Natural

variable {base limit n a : Nat} {digit? : Char → Option Nat} {cs : List Char}

theorem le_foldl_digits (pos : 0 < base) (ds : List Nat) (a : Nat) : a ≤ ds.foldl (fun n d => d + base * n) a := by
  induction ds generalizing a with
  | nil => exact Nat.le_refl a
  | cons d ds ih =>
    have more : a ≤ d + base * a := (Nat.le_mul_of_pos_left a pos).trans (Nat.le_add_left _ d)
    exact more.trans (ih _)

theorem foldlM_digits_eq_some_iff (pos : 0 < base) (below : a < limit) :
    cs.foldlM (fun n c => (digit? c).bind fun d =>
      if base * n + d < limit then some (base * n + d) else none) a = some n ↔
    ∃ ds, List.Forall₂ (fun c d => digit? c = some d) cs ds ∧ ds.foldl (fun n d => d + base * n) a = n ∧ n < limit := by
  induction cs generalizing a with
  | nil =>
    constructor
    · rintro ⟨⟩
      exact ⟨[], .nil, rfl, below⟩
    · rintro ⟨_, ⟨⟩, rfl, -⟩
      rfl
  | cons c cs ih =>
    rw [List.foldlM_cons, Option.bind_eq_bind, Option.bind_eq_some_iff]
    constructor
    · rintro ⟨b, first, rest⟩
      obtain ⟨d, digit, step⟩ := Option.bind_eq_some_iff.1 first
      obtain ⟨small, ⟨⟩⟩ := Option.ite_none_right_eq_some.1 step
      obtain ⟨ds, digits, value, low⟩ := (ih small).1 rest
      refine ⟨d :: ds, .cons digit digits, ?_, low⟩
      rw [List.foldl_cons, Nat.add_comm d, value]
    · rintro ⟨_, digit | ⟨digit, digits⟩, value, low⟩
      rename_i d ds
      have small : base * a + d < limit := by
        have grows := le_foldl_digits pos ds (d + base * a)
        rw [List.foldl_cons] at value
        omega
      refine ⟨base * a + d, Option.bind_eq_some_iff.2 ⟨d, digit, if_pos small⟩, (ih small).2 ⟨ds, digits, ?_, low⟩⟩
      rwa [List.foldl_cons, Nat.add_comm d] at value

theorem natural?_eq_some_iff (pos : 0 < base) (some : 0 < limit) :
    natural? base limit digit? cs = .some n ↔ cs ≠ [] ∧
      ∃ ds, List.Forall₂ (fun c d => digit? c = .some d) cs ds ∧ Nat.ofDigits base ds.reverse = n ∧ n < limit := by
  have value (ds : List Nat) : Nat.ofDigits base ds.reverse = ds.foldl (fun n d => d + base * n) 0 := by
    rw [Nat.ofDigits_eq_foldr, List.foldr_reverse]
    rfl
  unfold natural?
  split
  case isTrue none => simp [none]
  case isFalse digits =>
    rw [foldlM_digits_eq_some_iff pos some]
    simp only [value, and_iff_right digits]

end Natural

variable {cs : List Char} {n : Nat}

theorem denotes_of_digits (digits : ∀ c ∈ cs, c.isDigit = true) :
    Denotes cs n ↔
      cs ≠ [] ∧ ∃ ds, List.Forall₂ (fun c d => digit? c = some d) cs ds ∧ Nat.ofDigits 10 ds.reverse = n := by
  simp only [digit?_eq_some_iff]
  constructor
  · rintro (⟨some, spelled⟩ | ⟨rfl | rfl, some, spelled⟩)
    · exact ⟨some, _, spelled, rfl⟩
    · exact absurd (digits 'x' (by simp)) (by decide)
    · exact absurd (digits 'X' (by simp)) (by decide)
  · rintro ⟨some, ds, spelled, rfl⟩
    exact .decimal some spelled

theorem denotes_of_mark {x : Char} (mark : x = 'x' ∨ x = 'X') :
    Denotes ('0' :: x :: cs) n ↔
      cs ≠ [] ∧ ∃ ds, List.Forall₂ (fun c d => hexDigit? c = some d) cs ds ∧ Nat.ofDigits 16 ds.reverse = n := by
  simp only [hexDigit?_eq_some_iff]
  constructor
  · intro h
    cases h with
    | decimal _ spelled =>
      obtain _ | ⟨-, _ | ⟨digit, -⟩⟩ := spelled
      have none : digit? x = .none := by rcases mark with rfl | rfl <;> rfl
      cases none.symm.trans (digit?_eq_some_iff.2 digit)
    | hexadecimal _ some spelled => exact ⟨some, _, spelled, rfl⟩
  · rintro ⟨some, ds, spelled, rfl⟩
    exact .hexadecimal mark some spelled

/-- Numerals without a sign: digits, or any number of hexadecimal digits after `0x`. -/
def IsNumeral (cs : List Char) : Prop :=
  (∀ c ∈ cs, c.isDigit = true) ∨
    ∃ x hex, (x = 'x' ∨ x = 'X') ∧ cs = '0' :: x :: hex ∧ ∀ c ∈ hex, Lexer.isHexDigit c = true

theorem signed?_of_digits {limit : Nat} (digits : ∀ c ∈ cs, c.isDigit = true) :
    signed? limit cs = (natural? 10 limit digit? cs).map Nat.cast := by
  unfold signed?
  split
  case h_1 => exact absurd (digits '-' (by simp)) (by decide)
  case h_2 => exact absurd (digits '+' (by simp)) (by decide)
  case h_3 => cases natural? 10 limit digit? cs <;> rfl

theorem ofLiteral?_of_digits {s : String} (digits : ∀ c ∈ s.toList, c.isDigit = true) :
    ofLiteral? s = (natural? 10 0x8000000000000001 digit? s.toList).bind fun n =>
      if n < 0x100000000 then some (Int32.ofNat n) else none := by
  have unmarked {x : Char} {cs : List Char} (same : s.toList = '0' :: x :: cs) : x.isDigit = true :=
    digits x (by simp [same])
  unfold ofLiteral?
  split
  case h_1 same => cases unmarked same
  case h_2 same => cases unmarked same
  case h_3 _ same => cases unmarked same
  case h_4 _ same => cases unmarked same
  case h_5 =>
    rw [signed?_of_digits digits, Option.bind_map]
    refine Option.bind_congr fun n _ => ?_
    have small : (n : Int) < 0x100000000 ↔ n < 0x100000000 := by omega
    rw [Function.comp_apply, Int32.ofInt_eq_ofNat, if_congr small rfl rfl]

theorem ofLiteral?_of_mark {s : String} {x : Char} (mark : x = 'x' ∨ x = 'X') (same : s.toList = '0' :: x :: cs)
    (digits : ∀ c ∈ cs, Lexer.isHexDigit c = true) :
    ofLiteral? s = (natural? 16 0x100000000 hexDigit? cs).map Int32.ofNat := by
  unfold ofLiteral?
  rw [same]
  split
  case h_1 plus =>
    cases plus
    cases digits '+' List.mem_cons_self
  case h_2 plus =>
    cases plus
    cases digits '+' List.mem_cons_self
  case h_3 marked =>
    cases marked
    rfl
  case h_4 marked =>
    cases marked
    rfl
  case h_5 lower upper =>
    rcases mark with rfl | rfl
    · cases lower _ rfl
    · cases upper _ rfl

theorem ofLiteral?_eq_some_iff {s : String} (numeral : IsNumeral s.toList) {v : Int32} :
    ofLiteral? s = some v ↔ ∃ n, Denotes s.toList n ∧ n < 2 ^ 32 ∧ v = Int32.ofNat n := by
  rcases numeral with digits | ⟨x, hex, mark, same, digits⟩
  · rw [ofLiteral?_of_digits digits, Option.bind_eq_some_iff]
    refine exists_congr fun n => ?_
    rw [natural?_eq_some_iff (by decide) (by decide), denotes_of_digits digits, Option.ite_none_right_eq_some,
      Option.some_inj, eq_comm (a := v)]
    constructor
    · rintro ⟨⟨some, ds, spelled, value, -⟩, small, rfl⟩
      exact ⟨⟨some, ds, spelled, value⟩, small, rfl⟩
    · rintro ⟨⟨some, ds, spelled, value⟩, small, rfl⟩
      exact ⟨⟨some, ds, spelled, value, by omega⟩, small, rfl⟩
  · rw [ofLiteral?_of_mark mark same digits, Option.map_eq_some_iff, same]
    refine exists_congr fun n => ?_
    rw [natural?_eq_some_iff (by decide) (by decide), denotes_of_mark mark, eq_comm (a := v)]
    constructor
    · rintro ⟨⟨some, ds, spelled, value, small⟩, rfl⟩
      exact ⟨⟨some, ds, spelled, value⟩, small, rfl⟩
    · rintro ⟨⟨some, ds, spelled, value⟩, small, rfl⟩
      exact ⟨⟨some, ds, spelled, value, small⟩, rfl⟩

theorem eq_ofNat_iff_modEq {v : Int32} : v = Int32.ofNat n ↔ v.toInt ≡ n [ZMOD 2 ^ 32] := by
  rw [eq_comm, ← Int32.ofInt_eq_ofNat, Int32.ofInt_eq_iff_bmod_eq_toInt]
  constructor
  · intro same
    rw [← same]
    exact Int.bmod_emod
  · intro same
    rw [← Int32.toInt_bmod_size v]
    exact (Int.emod_bmod ..).symm.trans ((congrArg (Int.bmod · (2 ^ 32)) same.symm).trans (Int.emod_bmod ..))

end Integer

namespace Lexer

open Integer

theorem decimal_isNumeral {cs text : List Char} (h : (numeral.decimal cs).token? = some (.integer, text)) :
    IsNumeral text := by
  unfold numeral.decimal at h
  rw [List.span_eq_takeWhile_dropWhile] at h
  obtain ⟨kind, spelled⟩ := Prod.mk.inj (Option.some_inj.1 h)
  obtain ⟨fraction, exponent⟩ := of_not_not fun real => by cases (if_neg real).symm.trans kind
  rw [fraction, exponent, List.append_nil, List.append_nil] at spelled
  rw [← spelled]
  exact .inl fun c mem => List.mem_takeWhile_imp mem

theorem numeral_isNumeral {cs text : List Char} (h : (numeral cs).token? = some (.integer, text)) : IsNumeral text := by
  unfold numeral at h
  split at h
  case h_1 x cs =>
    split at h
    case isTrue mark =>
      rw [List.span_eq_takeWhile_dropWhile] at h
      cases h
      exact .inr ⟨x, _, mark, rfl, fun c mem => List.mem_takeWhile_imp mem⟩
    case isFalse => exact decimal_isNumeral h
  case h_2 => exact decimal_isNumeral h

theorem comment?_token {cs : List Char} {p : Piece} (h : comment? cs = some p) :
    p.token? = none ∨ p.token? = some (.error .unterminated, []) := by
  unfold comment? at h
  split at h
  case h_1 =>
    cases h
    exact .inl rfl
  case h_2 cs =>
    cases h
    cases closeComment? cs with
    | none => exact .inr rfl
    | some r => exact .inl rfl
  case h_3 => cases h

theorem piece_isNumeral {c : Char} {cs text : List Char} (h : (piece c cs).token? = some (.integer, text)) :
    IsNumeral text := by
  unfold piece at h
  split at h
  case isTrue => cases h
  case isFalse =>
    split at h
    case isTrue =>
      obtain ⟨kind, -⟩ := Prod.mk.inj (Option.some_inj.1 h)
      split at kind <;> cases kind
    case isFalse =>
      split at h
      case isTrue => exact numeral_isNumeral h
      case isFalse =>
        split at h
        case isTrue =>
          unfold stringLiteral at h
          split at h
          case h_1 => cases h
          case h_2 inside _ _ => cases read : Text.unescapeAll? inside.length inside <;> simp [read] at h
        case isFalse =>
          cases comment : comment? (c :: cs) with
          | some p =>
            rw [comment, Option.some_or, Option.getD_some] at h
            rcases comment?_token comment with none | error
            · cases none.symm.trans h
            · cases error.symm.trans h
          | none =>
            rw [comment, Option.none_or] at h
            cases operator : operator? (c :: cs) with
            | some p =>
              obtain ⟨_, -, rfl⟩ := Option.map_eq_some_iff.1 operator
              rw [operator] at h
              cases h
            | none =>
              rw [operator] at h
              cases h

theorem isNumeral_of_mem_tokensFrom {fuel offset : Nat} {cs : List Char} {t : Token}
    (mem : t ∈ tokensFrom fuel offset cs) (integer : t.kind = .integer) : IsNumeral t.text.toList := by
  induction fuel generalizing offset cs with
  | zero => cases mem
  | succ fuel ih =>
    cases cs with
    | nil => cases mem
    | cons c cs =>
      unfold tokensFrom at mem
      dsimp only at mem
      split at mem
      case h_1 => exact ih mem
      case h_2 kind text token =>
        rcases List.mem_cons.1 mem with rfl | mem
        · cases integer
          rw [String.toList_ofList]
          exact piece_isNumeral token
        · exact ih mem

end Lexer

namespace Compiler

open Compile

variable {lv : Level} {ctx : Context} {s : State} {t : Token} {rest : List Token}

theorem primaryBody_of_integer (next : s.rest = t :: rest) (integer : t.kind = .integer) :
    primaryBody lv ctx s = (match Integer.ofLiteral? t.text with
      | some v => literal t.span (Slot.ofInt v)
      | none => fail .badToken t.span : Compiler Operand) ctx { s with rest := rest } := by
  obtain ⟨_, scopes, node⟩ := s
  obtain ⟨kind, text, span⟩ := t
  cases next
  cases integer
  rfl

/-- An integer token is read exactly if it stands for a number of 32 bits, and then as the 32-bit integer congruent to
that. The literal is compiled from what was read, and a token that was not read is a bad one. -/
theorem reads_integer_literals {source : String} {t : Token} (mem : t ∈ Lexer.tokens source)
    (integer : t.kind = .integer) :
    (∀ v : Int32, Integer.ofLiteral? t.text = some v ↔
      ∃ n, Integer.Denotes t.text.toList n ∧ n < 2 ^ 32 ∧ v.toInt ≡ n [ZMOD 2 ^ 32]) ∧
    (Integer.ofLiteral? t.text = none ↔ ¬ ∃ n, Integer.Denotes t.text.toList n ∧ n < 2 ^ 32) ∧
    ∀ lv ctx s rest, s.rest = t :: rest →
      (∀ v, Integer.ofLiteral? t.text = some v → primaryBody lv ctx s =
        (some ⟨⟨s.nextNode, t.span, .literal (Slot.ofInt v)⟩, .int, some (Slot.ofInt v)⟩,
          { s with rest := rest, nextNode := s.nextNode + 1 })) ∧
      (Integer.ofLiteral? t.text = none → (primaryBody lv ctx s).1 = none ∧
        (s.scopes.error = none → (primaryBody lv ctx s).2.scopes.error = some ⟨.badToken, t.span⟩)) := by
  have numeral := Lexer.isNumeral_of_mem_tokensFrom mem integer
  have read (v : Int32) : Integer.ofLiteral? t.text = some v ↔
      ∃ n, Integer.Denotes t.text.toList n ∧ n < 2 ^ 32 ∧ v.toInt ≡ n [ZMOD 2 ^ 32] := by
    simp only [Integer.ofLiteral?_eq_some_iff numeral, Integer.eq_ofNat_iff_modEq]
  refine ⟨read, ?_, fun lv ctx s rest next => ⟨fun v some => ?_, fun none => ?_⟩⟩
  · rw [Option.eq_none_iff_forall_ne_some]
    constructor
    · rintro unread ⟨n, denotes, small⟩
      exact unread _ ((read (Int32.ofNat n)).2 ⟨n, denotes, small, Integer.eq_ofNat_iff_modEq.1 rfl⟩)
    · intro large v some
      obtain ⟨n, denotes, small, -⟩ := (read v).1 some
      exact large ⟨n, denotes, small⟩
  · rw [primaryBody_of_integer next integer, some]
    rfl
  · rw [primaryBody_of_integer next integer, none]
    refine ⟨rfl, fun first => ?_⟩
    change (s.scopes.recordError .badToken t.span).error = _
    rw [ScopeStack.recordError, first]

/-!
Leading zeros, a number between the two ranges, one with more digits than bits are counted in, and marks with and
without digits behind them.
-/
namespace Numerals

def source : String := "0002147483648 4294967296 0XeFffFFFF 0x 0x00100000000 99999999999999999999 7.5"

def token : Token := ⟨.integer, "0XeFffFFFF", ⟨25, 35⟩⟩

theorem reads_integer_literals_mixed :
    (Lexer.tokens source).map (fun t => (t.kind, Integer.ofLiteral? t.text)) =
      [(.integer, some (-2147483648)), (.integer, none), (.integer, some (-268435457)), (.integer, none),
        (.integer, none), (.integer, none), (.real, none)] ∧
    token ∈ Lexer.tokens source ∧ token.kind = .integer ∧ ∀ v : Int32, Integer.ofLiteral? token.text = some v ↔
      ∃ n, Integer.Denotes token.text.toList n ∧ n < 2 ^ 32 ∧ v.toInt ≡ n [ZMOD 2 ^ 32] := by
  have mem : token ∈ Lexer.tokens source := by decide +kernel
  exact ⟨by decide +kernel, mem, rfl, (reads_integer_literals mem rfl).1⟩

end Numerals

end Compiler
end Tickwise
