import Mathlib.Data.List.TakeDrop
import Tickwise.Source.Lexer
set_option autoImplicit false

/-!
# Pieces of a source

Each piece that the lexer takes is a front part of its input. So the range of a token lies between the
bytes before it and those behind it, and is in order as long as positions can be told apart.
-/
namespace Tickwise

@[simp] theorem byteLength_nil : byteLength [] = 0 := rfl

theorem byteLength_cons (c : Char) (cs : List Char) : byteLength (c :: cs) = c.utf8Size + byteLength cs := by
  have shift (cs : List Char) (n : Nat) : cs.foldl (fun n c => n + c.utf8Size) n =
      n + cs.foldl (fun n c => n + c.utf8Size) 0 := by
    induction cs generalizing n with
    | nil => rfl
    | cons c cs ih =>
      rw [List.foldl_cons, List.foldl_cons, ih (n + c.utf8Size), ih (0 + c.utf8Size)]
      omega
  unfold byteLength
  rw [List.foldl_cons, shift, Nat.zero_add]

theorem byteLength_append (cs ds : List Char) : byteLength (cs ++ ds) = byteLength cs + byteLength ds := by
  induction cs with
  | nil => simp
  | cons c cs ih => rw [List.cons_append, byteLength_cons, byteLength_cons, ih, Nat.add_assoc]

namespace Lexer

theorem span_append (p : Char → Bool) (cs : List Char) : (cs.span p).1 ++ (cs.span p).2 = cs := by
  rw [List.span_eq_takeWhile_dropWhile]
  exact List.takeWhile_append_dropWhile

theorem closeComment?_append {cs inside rest : List Char} (h : closeComment? cs = some (inside, rest)) :
    inside ++ rest = cs := by
  fun_induction closeComment? cs generalizing inside rest with
  | case1 rest => cases h; rfl
  | case2 c cs _ ih =>
    obtain ⟨⟨inside', rest'⟩, closed, same⟩ := Option.map_eq_some_iff.1 h
    cases same
    exact congrArg (c :: ·) (ih closed)
  | case3 => cases h

theorem closeString?_append {cs inside rest : List Char} (h : closeString? cs = some (inside, rest)) :
    inside ++ '\x22' :: rest = cs := by
  fun_induction closeString? cs generalizing inside rest with
  | case1 rest => cases h; rfl
  | case2 c cs ih =>
    obtain ⟨⟨inside', rest'⟩, closed, same⟩ := Option.map_eq_some_iff.1 h
    cases same
    exact congrArg ('\x5c' :: c :: ·) (ih closed)
  | case3 c cs _ _ ih =>
    obtain ⟨⟨inside', rest'⟩, closed, same⟩ := Option.map_eq_some_iff.1 h
    cases same
    exact congrArg (c :: ·) (ih closed)
  | case4 => cases h

theorem comment?_append {cs : List Char} {p : Piece} (h : comment? cs = some p) : p.chars ++ p.rest = cs := by
  unfold comment? at h
  split at h
  case h_1 cs =>
    cases h
    exact congrArg ('/' :: '/' :: ·) (span_append _ cs)
  case h_2 cs =>
    cases h
    cases hc : closeComment? cs with
    | none => exact List.append_nil _
    | some r => exact congrArg ('/' :: '*' :: ·) (closeComment?_append hc)
  case h_3 => cases h

theorem word_append (cs : List Char) : (word cs).chars ++ (word cs).rest = cs := span_append _ cs

theorem exponentPart_append (cs : List Char) : (exponentPart cs).1 ++ (exponentPart cs).2 = cs := by
  unfold exponentPart
  extract_lets digits part?
  have whole (lead ds : List Char) {r : List Char × List Char} (h : digits lead ds = some r) :
      r.1 ++ r.2 = lead ++ ds := by
    dsimp only [digits] at h
    split at h
    case h_1 d _ =>
      split at h
      · cases h
        exact (List.append_assoc ..).trans (congrArg (lead ++ ·) (span_append _ _))
      · cases h
    case h_2 => cases h
  cases hp : part? with
  | none => rfl
  | some r =>
    dsimp only [part?] at hp
    split at hp
    case h_1 e sign more =>
      split at hp
      · split at hp
        · exact whole [e, sign] more hp
        · exact whole [e] (sign :: more) hp
      · cases hp
    case h_2 => cases hp

theorem decimal_append (cs : List Char) : (numeral.decimal cs).chars ++ (numeral.decimal cs).rest = cs := by
  unfold numeral.decimal
  have front := span_append Char.isDigit cs
  generalize cs.span Char.isDigit = w at front ⊢
  obtain ⟨whole, rest⟩ := w
  dsimp only at front ⊢
  split
  case h_1 more =>
    have point : ('.' :: (more.span Char.isDigit).1) ++ (more.span Char.isDigit).2 = '.' :: more :=
      congrArg ('.' :: ·) (span_append _ more)
    simp only [List.append_assoc, exponentPart_append, point, front]
  case h_2 =>
    simp only [List.append_nil, List.append_assoc, exponentPart_append, front]

theorem numeral_append (cs : List Char) : (numeral cs).chars ++ (numeral cs).rest = cs := by
  unfold numeral
  split
  case h_1 x cs =>
    split
    · exact congrArg ('0' :: x :: ·) (span_append _ cs)
    · exact decimal_append _
  case h_2 => exact decimal_append cs

theorem stringLiteral_append (cs : List Char) :
    (stringLiteral cs).chars ++ (stringLiteral cs).rest = '\x22' :: cs := by
  unfold stringLiteral
  split
  case h_1 => exact List.append_nil _
  case h_2 inside rest closed =>
    have whole := closeString?_append closed
    rw [← whole]
    simp

theorem operator?_append {cs : List Char} {p : Piece} (h : operator? cs = some p) : p.chars ++ p.rest = cs := by
  obtain ⟨⟨op, chars⟩, found, rfl⟩ := Option.map_eq_some_iff.1 h
  have front := List.find?_some found
  exact List.prefix_iff_eq_append.1 (List.isPrefixOf_iff_prefix.1 front)

theorem piece_append (c : Char) (cs : List Char) : (piece c cs).chars ++ (piece c cs).rest = c :: cs := by
  unfold piece
  split
  · exact congrArg (c :: ·) (span_append _ cs)
  · split
    · exact word_append _
    · split
      · exact numeral_append _
      · split
        case isTrue quote =>
          rw [quote]
          exact stringLiteral_append cs
        case isFalse =>
          cases hc : comment? (c :: cs) with
          | some p => exact comment?_append hc
          | none =>
            cases ho : operator? (c :: cs) with
            | some p => exact operator?_append ho
            | none => rfl

theorem span_of_mem_tokensFrom {fuel offset : Nat} {cs : List Char} {t : Token}
    (h : t ∈ tokensFrom fuel offset cs) : ∃ a b, a ≤ b ∧ b ≤ offset + byteLength cs ∧
      t.span = ⟨UInt32.ofNat a, UInt32.ofNat b⟩ := by
  induction fuel generalizing offset cs with
  | zero => cases h
  | succ fuel ih =>
    cases cs with
    | nil => cases h
    | cons c cs =>
      have whole : byteLength (piece c cs).chars + byteLength (piece c cs).rest = byteLength (c :: cs) := by
        rw [← byteLength_append, piece_append]
      have behind (h : t ∈ tokensFrom fuel (offset + byteLength (piece c cs).chars) (piece c cs).rest) :
          ∃ a b, a ≤ b ∧ b ≤ offset + byteLength (c :: cs) ∧ t.span = ⟨UInt32.ofNat a, UInt32.ofNat b⟩ := by
        obtain ⟨a, b, le, stop, span⟩ := ih h
        exact ⟨a, b, le, by omega, span⟩
      unfold tokensFrom at h
      dsimp only at h
      split at h
      case h_1 => exact behind h
      case h_2 =>
        rcases List.mem_cons.1 h with rfl | h
        · exact ⟨_, _, Nat.le_add_right .., by omega, rfl⟩
        · exact behind h

/-- In a source whose bytes can be counted by a position, no token stops before it starts. -/
theorem ordered_of_mem_tokens {source : String} (countable : byteLength source.toList < UInt32.size)
    {t : Token} (h : t ∈ tokens source) : ¬ t.span.stop < t.span.start := by
  obtain ⟨a, b, le, stop, span⟩ := span_of_mem_tokensFrom h
  have small : b < UInt32.size := by omega
  rw [span, UInt32.lt_iff_toNat_lt, UInt32.toNat_ofNat_of_lt' small,
    UInt32.toNat_ofNat_of_lt' (Nat.lt_of_le_of_lt le small)]
  exact Nat.not_lt.2 le

end Lexer
end Tickwise
