import Tickwise.Proofs.Source.Partition
set_option autoImplicit false

/-!
# Strings as literals

Every text is what some literal stands for: between quotes, with a backslash in front of each quote and each
backslash. What finds the closing quote and what reads the escapes agree on where an escape ends, because no
backslash is left over.
-/
namespace Tickwise

namespace Text

def escapeChar (c : Char) : List Char := if c = '\x22' ∨ c = '\x5c' then ['\x5c', c] else [c]

def escape (cs : List Char) : List Char := cs.flatMap escapeChar

/-- A text between quotes, with a backslash in front of each quote and each backslash. -/
def literal (s : String) : String := String.ofList ('\x22' :: escape s.toList ++ ['\x22'])

theorem escape_cons (c : Char) (cs : List Char) : escape (c :: cs) = escapeChar c ++ escape cs := List.flatMap_cons

theorem escapeChar_of_escaped {c : Char} (h : c = '\x22' ∨ c = '\x5c') : escapeChar c = ['\x5c', c] := if_pos h

theorem escapeChar_of_plain {c : Char} (h : ¬ (c = '\x22' ∨ c = '\x5c')) : escapeChar c = [c] := if_neg h

theorem unescape_escapeChar (c : Char) (rest : List Char) : unescape (escapeChar c ++ rest) = (.ok c, rest) := by
  by_cases escaped : c = '\x22' ∨ c = '\x5c'
  · rw [escapeChar_of_escaped escaped]
    rcases escaped with rfl | rfl <;> rfl
  · rw [escapeChar_of_plain escaped, List.singleton_append]
    unfold unescape
    split
    case h_1 none => cases none
    case h_2 same =>
      cases same
      exact absurd (.inr rfl) escaped
    case h_3 same =>
      cases same
      rfl

theorem escapeChar_ne_nil (c : Char) : escapeChar c ≠ [] := by
  unfold escapeChar
  split <;> exact List.cons_ne_nil _ _

theorem unescapeAll?_escape {fuel : Nat} {cs : List Char} (enough : cs.length ≤ fuel) :
    unescapeAll? fuel (escape cs) = some cs := by
  induction cs generalizing fuel with
  | nil => cases fuel <;> rfl
  | cons c cs ih =>
    rw [escape_cons]
    cases fuel with
    | zero => cases enough
    | succ fuel =>
      have first := unescape_escapeChar c (escape cs)
      cases front : escapeChar c ++ escape cs with
      | nil => exact absurd (List.append_eq_nil_iff.1 front).1 (escapeChar_ne_nil c)
      | cons d ds =>
        rw [front] at first
        unfold unescapeAll?
        rw [first]
        dsimp only
        rw [ih (Nat.le_of_succ_le_succ enough)]
        rfl

theorem length_le_length_escape (cs : List Char) : cs.length ≤ (escape cs).length := by
  induction cs with
  | nil => exact Nat.le_refl _
  | cons c cs ih =>
    have first := List.length_pos_iff.2 (escapeChar_ne_nil c)
    rw [escape_cons, List.length_append, List.length_cons]
    omega

end Text

namespace Lexer

open Text

theorem closeString?_escape (cs rest : List Char) : closeString? (escape cs ++ '\x22' :: rest) = some (escape cs, rest) := by
  induction cs with
  | nil => rfl
  | cons c cs ih =>
    rw [escape_cons, List.append_assoc]
    by_cases escaped : c = '\x22' ∨ c = '\x5c'
    · rw [escapeChar_of_escaped escaped]
      change (closeString? (escape cs ++ '\x22' :: rest)).map _ = _
      rw [ih]
      rfl
    · rw [escapeChar_of_plain escaped]
      obtain ⟨quote, backslash⟩ := not_or.1 escaped
      rw [List.singleton_append, closeString?, ih]
      · rfl
      · exact quote
      · intro _ _ same
        exact absurd same backslash

theorem piece_literal (cs rest : List Char) : piece '\x22' (escape cs ++ '\x22' :: rest) =
    ⟨'\x22' :: escape cs ++ ['\x22'], rest, some (.string, cs)⟩ := by
  change stringLiteral (escape cs ++ '\x22' :: rest) = _
  unfold stringLiteral
  rw [closeString?_escape]
  dsimp only
  rw [unescapeAll?_escape (length_le_length_escape cs)]

theorem toList_literal (s : String) : (literal s).toList = '\x22' :: (escape s.toList ++ ['\x22']) := by
  unfold literal
  rw [String.toList_ofList, List.cons_append]

/-- A text is what its literal stands for, and the literal is one token. -/
theorem tokens_literal {s : String} (small : (literal s).utf8ByteSize < UInt32.size) :
    ∃ t, tokens (literal s) = [t] ∧ t.kind = .string ∧ t.text = s ∧ t.span.start.toNat = 0 ∧
      t.span.stop.toNat = (literal s).utf8ByteSize := by
  have first := piece_literal s.toList []
  have whole : byteLength ('\x22' :: escape s.toList ++ ['\x22']) = (literal s).utf8ByteSize := (utf8ByteSize_ofList _).symm
  refine ⟨⟨.string, s, ⟨0, UInt32.ofNat (literal s).utf8ByteSize⟩⟩, ?_, rfl, rfl, rfl, UInt32.toNat_ofNat_of_lt' small⟩
  unfold tokens
  dsimp only
  rw [toList_literal, List.length_cons]
  unfold tokensFrom
  dsimp only
  rw [first]
  dsimp only
  rw [whole, Nat.zero_add, String.ofList_toList]
  generalize (escape s.toList ++ ['\x22']).length = n
  cases n <;> rfl

/-!
Backslashes in front of quotes, a null character, a line break, characters of more bytes behind a backslash, and a
backslash at the end.
-/
namespace Escaped

def text : String := "\x5c\x22\x5c\x5c\x22\x00\x0a\x5c\u00e9\u263a\x5c"

theorem tokens_literal_escaped : (literal text).utf8ByteSize < UInt32.size ∧
    ∃ t, tokens (literal text) = [t] ∧ t.kind = .string ∧ t.text = text ∧ t.span.start.toNat = 0 ∧
      t.span.stop.toNat = (literal text).utf8ByteSize := by
  have small : (literal text).utf8ByteSize < UInt32.size := by decide +kernel
  exact ⟨small, tokens_literal small⟩

end Escaped

end Lexer
end Tickwise
