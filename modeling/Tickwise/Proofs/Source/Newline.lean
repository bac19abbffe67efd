import Mathlib.Data.List.Find
import Tickwise.Proofs.Source.Partition
set_option autoImplicit false

/-!
# Line breaks between tokens

A line break ends every token but a string or a block comment that is still open. So the tokens in front of it are
those of the source in front of it, and those behind it the ones of the source behind it.
-/
namespace Tickwise

/-- The range so many bytes further on. -/
def Span.shift (n : Nat) (s : Span) : Span := ⟨UInt32.ofNat (s.start.toNat + n), UInt32.ofNat (s.stop.toNat + n)⟩

def Token.shift (n : Nat) (t : Token) : Token := { t with span := t.span.shift n }

namespace Lexer

variable {c : Char} {cs b more inside rest : List Char} {offset n fuel fuel' : Nat}

def Piece.onto (p : Piece) (more : List Char) : Piece := { p with rest := p.rest ++ more }

def Piece.Closed (p : Piece) : Prop := ∀ text, p.token? ≠ some (.error .unterminated, text)

theorem takeWhile_newline {p : Char → Bool} (h : p '\n' = false) (cs b : List Char) :
    (cs ++ '\n' :: b).takeWhile p = cs.takeWhile p := by
  induction cs with
  | nil => simp [h]
  | cons c cs ih => simp only [List.cons_append, List.takeWhile_cons, ih]

theorem dropWhile_newline {p : Char → Bool} (h : p '\n' = false) (cs b : List Char) :
    (cs ++ '\n' :: b).dropWhile p = cs.dropWhile p ++ '\n' :: b := by
  induction cs with
  | nil => simp [h]
  | cons c cs ih =>
    rw [List.cons_append, List.dropWhile_cons, List.dropWhile_cons, ih]
    split <;> rfl

theorem span_newline {p : Char → Bool} (h : p '\n' = false) (cs b : List Char) :
    (cs ++ '\n' :: b).span p = ((cs.span p).1, (cs.span p).2 ++ '\n' :: b) := by
  simp only [List.span_eq_takeWhile_dropWhile, takeWhile_newline h, dropWhile_newline h]

theorem closeComment?_more (h : closeComment? cs = some (inside, rest)) :
    closeComment? (cs ++ more) = some (inside, rest ++ more) := by
  fun_induction closeComment? cs generalizing inside with
  | case1 rest =>
    cases h
    rfl
  | case2 c cs other ih =>
    obtain ⟨⟨inside', rest'⟩, closed, same⟩ := Option.map_eq_some_iff.1 h
    cases same
    rw [List.cons_append, closeComment?, ih closed]
    · rfl
    · -- What follows is not empty, so the mark is not made by what is appended.
      intro rest hc front
      cases cs with
      | nil => cases closed
      | cons d ds =>
        cases front
        exact other _ hc rfl
  | case3 => cases h

theorem closeString?_more (h : closeString? cs = some (inside, rest)) :
    closeString? (cs ++ more) = some (inside, rest ++ more) := by
  fun_induction closeString? cs generalizing inside with
  | case1 rest =>
    cases h
    rfl
  | case2 c cs ih =>
    obtain ⟨⟨inside', rest'⟩, closed, same⟩ := Option.map_eq_some_iff.1 h
    cases same
    rw [List.cons_append, List.cons_append, closeString?, ih closed]
    rfl
  | case3 c cs quote escape ih =>
    obtain ⟨⟨inside', rest'⟩, closed, same⟩ := Option.map_eq_some_iff.1 h
    cases same
    rw [List.cons_append, closeString?, ih closed]
    · rfl
    · exact quote
    · intro d ds hc front
      cases cs with
      | nil => cases closed
      | cons e es =>
        cases front
        exact escape _ _ hc rfl
  | case4 => cases h

theorem word_newline (cs b : List Char) : word (cs ++ '\n' :: b) = (word cs).onto ('\n' :: b) := by
  unfold word
  rw [span_newline (by decide)]
  rfl

theorem exponentPart_newline (cs b : List Char) :
    exponentPart (cs ++ '\n' :: b) = ((exponentPart cs).1, (exponentPart cs).2 ++ '\n' :: b) := by
  have digit : Char.isDigit '\n' = false := by decide
  -- A letter, a sign and a digit are all that is looked at in front of the digits.
  rcases cs with _ | ⟨e, _ | ⟨sign, _ | ⟨d, ds⟩⟩⟩
  · cases b <;> simp [exponentPart]
  · simp [exponentPart, digit]
  · by_cases he : e = 'e' ∨ e = 'E' <;> by_cases hs : sign = '+' ∨ sign = '-' <;> by_cases hd : sign.isDigit = true <;>
      simp [exponentPart, he, hs, hd, digit]
  · by_cases he : e = 'e' ∨ e = 'E' <;> by_cases hs : sign = '+' ∨ sign = '-' <;> by_cases hd : d.isDigit = true <;>
      by_cases hf : sign.isDigit = true <;>
      simp [exponentPart, he, hs, hd, hf, takeWhile_newline digit, dropWhile_newline digit]

theorem decimal_newline (cs b : List Char) :
    numeral.decimal (cs ++ '\n' :: b) = (numeral.decimal cs).onto ('\n' :: b) := by
  have digit : Char.isDigit '\n' = false := by decide
  unfold numeral.decimal
  rw [span_newline digit]
  generalize cs.span Char.isDigit = w
  obtain ⟨whole, rest⟩ := w
  rcases rest with _ | ⟨d, ds⟩
  · have exponent := exponentPart_newline [] b
    rw [List.nil_append] at exponent
    simp [exponent, Piece.onto]
  · by_cases point : d = '.'
    · subst point
      simp [takeWhile_newline digit, dropWhile_newline digit, exponentPart_newline, Piece.onto]
    · have exponent := exponentPart_newline (d :: ds) b
      rw [List.cons_append] at exponent
      simp [point, exponent, Piece.onto]

theorem numeral_of_decimal (h : ∀ x ds, cs = '0' :: x :: ds → ¬ (x = 'x' ∨ x = 'X')) :
    numeral cs = numeral.decimal cs := by
  unfold numeral
  split
  · rw [if_neg (h _ _ rfl)]
  · rfl

theorem numeral_newline (cs b : List Char) : numeral (cs ++ '\n' :: b) = (numeral cs).onto ('\n' :: b) := by
  by_cases hex : ∃ x ds, cs = '0' :: x :: ds ∧ (x = 'x' ∨ x = 'X')
  · obtain ⟨x, ds, rfl, mark⟩ := hex
    have digit : isHexDigit '\n' = false := by decide
    simp [numeral, mark, takeWhile_newline digit, dropWhile_newline digit, Piece.onto]
  · have other (x : Char) (ds : List Char) (same : cs ++ '\n' :: b = '0' :: x :: ds) : ¬ (x = 'x' ∨ x = 'X') := by
      rcases cs with _ | ⟨c, _ | ⟨d, cs⟩⟩ <;> cases same
      · simp
      · exact fun mark => hex ⟨_, _, rfl, mark⟩
    rw [numeral_of_decimal other, numeral_of_decimal fun x ds same mark => hex ⟨x, ds, same, mark⟩, decimal_newline]

theorem stringLiteral_newline (closed : (stringLiteral cs).Closed) (b : List Char) :
    stringLiteral (cs ++ '\n' :: b) = (stringLiteral cs).onto ('\n' :: b) := by
  cases ends : closeString? cs with
  | none =>
    rw [stringLiteral, ends] at closed
    exact absurd rfl (closed [])
  | some r =>
    simp only [stringLiteral, ends, closeString?_more ends, Piece.onto]

theorem comment?_newline (closed : ∀ p ∈ comment? cs, p.Closed) (b : List Char) :
    comment? (cs ++ '\n' :: b) = (comment? cs).map (·.onto ('\n' :: b)) := by
  rcases cs with _ | ⟨c, _ | ⟨d, cs⟩⟩
  · rfl
  · by_cases slash : c = '/' <;> simp [comment?, slash]
  by_cases slash : c = '/'
  · subst slash
    by_cases line : d = '/'
    · subst line
      have taken := takeWhile_newline (p := fun c => !decide (c = '\n')) (by decide) cs b
      have left := dropWhile_newline (p := fun c => !decide (c = '\n')) (by decide) cs b
      simp [comment?, taken, left, Piece.onto]
    · by_cases star : d = '*'
      · subst star
        cases ends : closeComment? cs with
        | none =>
          have mem : ⟨'/' :: '*' :: cs, [], some (.error .unterminated, [])⟩ ∈ comment? ('/' :: '*' :: cs) := by
            simp [comment?, ends]
          exact absurd rfl (closed _ mem [])
        | some r => simp [comment?, ends, closeComment?_more ends, Piece.onto]
      · simp [comment?, line, star]
  · simp [comment?, slash]

theorem spellings_newline : ∀ s ∈ Operator.spellings, '\n' ∉ s.2 := by decide

theorem prefix_newline {s : List Char} (h : '\n' ∉ s) (cs b : List Char) : s <+: cs ++ '\n' :: b ↔ s <+: cs := by
  refine ⟨fun front => ?_, fun front => front.trans (List.prefix_append ..)⟩
  induction cs generalizing s with
  | nil =>
    cases s with
    | nil => exact List.nil_prefix
    | cons d s =>
      obtain ⟨rfl, -⟩ := List.cons_prefix_cons.1 front
      simp at h
  | cons c cs ih =>
    cases s with
    | nil => exact List.nil_prefix
    | cons d s =>
      obtain ⟨rfl, rest⟩ := List.cons_prefix_cons.1 front
      exact List.cons_prefix_cons.2 ⟨rfl, ih (fun mem => h (List.mem_cons_of_mem _ mem)) rest⟩

theorem operator?_newline (cs b : List Char) :
    operator? (cs ++ '\n' :: b) = (operator? cs).map (·.onto ('\n' :: b)) := by
  have same : (Operator.spellings.find? fun s => s.2.isPrefixOf (cs ++ '\n' :: b)) =
      Operator.spellings.find? fun s => s.2.isPrefixOf cs := by
    refine List.find?_congr fun s mem => ?_
    rw [Bool.eq_iff_iff, List.isPrefixOf_iff_prefix, List.isPrefixOf_iff_prefix,
      prefix_newline (spellings_newline s mem)]
  unfold operator?
  rw [same]
  cases found : Operator.spellings.find? fun s => s.2.isPrefixOf cs with
  | none => rfl
  | some s =>
    have fits := List.find?_some found
    have short := (List.isPrefixOf_iff_prefix.1 fits).length_le
    simp [Piece.onto, List.drop_append_of_le_length short]

theorem piece_newline (blank : isSpace c = false) (closed : (piece c cs).Closed) (b : List Char) :
    piece c (cs ++ '\n' :: b) = (piece c cs).onto ('\n' :: b) := by
  have next : (cs ++ '\n' :: b).head?.any Char.isDigit = cs.head?.any Char.isDigit := by
    cases cs <;> rfl
  unfold piece at closed ⊢
  simp only [blank, Bool.false_eq_true, if_false, next] at closed ⊢
  by_cases start : isWordStart c = true
  · rw [if_pos start, if_pos start]
    exact word_newline (c :: cs) b
  rw [if_neg start] at closed ⊢
  rw [if_neg start]
  by_cases digit : c.isDigit = true ∨ c = '.' ∧ cs.head?.any Char.isDigit = true
  · rw [if_pos digit, if_pos digit]
    exact numeral_newline (c :: cs) b
  rw [if_neg digit] at closed ⊢
  rw [if_neg digit]
  by_cases quote : c = '\x22'
  · rw [if_pos quote] at closed ⊢
    rw [if_pos quote]
    exact stringLiteral_newline closed b
  rw [if_neg quote] at closed ⊢
  rw [if_neg quote]
  have comments : comment? (c :: (cs ++ '\n' :: b)) = (comment? (c :: cs)).map (·.onto ('\n' :: b)) := by
    refine @comment?_newline (c :: cs) (fun p mem => ?_) b
    rw [Option.mem_def.1 mem] at closed
    exact closed
  have operators : operator? (c :: (cs ++ '\n' :: b)) = (operator? (c :: cs)).map (·.onto ('\n' :: b)) :=
    operator?_newline (c :: cs) b
  rw [comments, operators]
  cases comment? (c :: cs) <;> cases operator? (c :: cs) <;> rfl

def Piece.tokenAt (p : Piece) (offset : Nat) : List Token :=
  p.token?.toList.map fun t =>
    ⟨t.1, String.ofList t.2, ⟨UInt32.ofNat offset, UInt32.ofNat (offset + byteLength p.chars)⟩⟩

def tokensAt (offset : Nat) (cs : List Char) : List Token := tokensFrom cs.length offset cs

theorem tokensFrom_succ (fuel offset : Nat) (c : Char) (cs : List Char) :
    tokensFrom (fuel + 1) offset (c :: cs) = (piece c cs).tokenAt offset ++
      tokensFrom fuel (offset + byteLength (piece c cs).chars) (piece c cs).rest := by
  rw [tokensFrom]
  unfold Piece.tokenAt
  cases (piece c cs).token? <;> rfl

theorem length_rest_lt (c : Char) (cs : List Char) : (piece c cs).rest.length < (c :: cs).length := by
  have length := congrArg List.length (piece_append c cs)
  have some := List.length_pos_iff.2 (piece_chars_ne_nil c cs)
  rw [List.length_append] at length
  omega

/-- More pieces than there are characters make no difference. -/
theorem tokensFrom_eq (enough : cs.length ≤ fuel) (enough' : cs.length ≤ fuel') :
    tokensFrom fuel offset cs = tokensFrom fuel' offset cs := by
  induction fuel generalizing fuel' offset cs with
  | zero =>
    obtain rfl := List.length_eq_zero_iff.1 (Nat.le_zero.1 enough)
    cases fuel' <;> rfl
  | succ fuel ih =>
    cases cs with
    | nil => cases fuel' <;> rfl
    | cons c cs =>
      have shorter := length_rest_lt c cs
      obtain _ | fuel' := fuel'
      · simp at enough'
      have rest : (piece c cs).rest.length ≤ fuel ∧ (piece c cs).rest.length ≤ fuel' := by omega
      rw [tokensFrom_succ, tokensFrom_succ, ih rest.1 rest.2]

theorem tokensAt_cons (offset : Nat) (c : Char) (cs : List Char) :
    tokensAt offset (c :: cs) = (piece c cs).tokenAt offset ++
      tokensAt (offset + byteLength (piece c cs).chars) (piece c cs).rest := by
  have shorter := length_rest_lt c cs
  unfold tokensAt
  rw [List.length_cons, tokensFrom_succ]
  rw [List.length_cons] at shorter
  rw [tokensFrom_eq (by omega) (Nat.le_refl _)]

theorem tokensAt_blank (blank : isSpace c = true) (offset : Nat) (cs : List Char) :
    tokensAt offset (c :: cs) = tokensAt (offset + c.utf8Size) cs := by
  have run (d : Char) (ds : List Char) (hd : isSpace d = true) :
      piece d ds = ⟨d :: ds.takeWhile isSpace, ds.dropWhile isSpace, none⟩ := by
    unfold piece
    rw [if_pos hd, List.span_eq_takeWhile_dropWhile]
  rw [tokensAt_cons, run c cs blank]
  change tokensAt (offset + byteLength (c :: cs.takeWhile isSpace)) (cs.dropWhile isSpace) = _
  rw [byteLength_cons]
  cases cs with
  | nil => rfl
  | cons d ds =>
    by_cases hd : isSpace d = true
    · rw [tokensAt_cons, run d ds hd, List.takeWhile_cons_of_pos hd, List.dropWhile_cons_of_pos hd, ← Nat.add_assoc]
      rfl
    · rw [List.takeWhile_cons_of_neg hd, List.dropWhile_cons_of_neg hd]
      rfl

theorem shift_ofNat (a b n : Nat) :
    (⟨UInt32.ofNat (a + n), UInt32.ofNat (b + n)⟩ : Span) = Span.shift n ⟨UInt32.ofNat a, UInt32.ofNat b⟩ := by
  have one (a : Nat) : UInt32.ofNat (a + n) = UInt32.ofNat ((UInt32.ofNat a).toNat + n) := by
    rw [UInt32.ofNat_add, UInt32.ofNat_add, UInt32.ofNat_toNat]
  rw [Span.shift, ← one, ← one]

theorem tokensFrom_shift (fuel offset n : Nat) (cs : List Char) :
    tokensFrom fuel (offset + n) cs = (tokensFrom fuel offset cs).map (Token.shift n) := by
  induction fuel generalizing offset cs with
  | zero => rfl
  | succ fuel ih =>
    cases cs with
    | nil => rfl
    | cons c cs =>
      have first : (piece c cs).tokenAt (offset + n) = ((piece c cs).tokenAt offset).map (Token.shift n) := by
        unfold Piece.tokenAt
        cases (piece c cs).token? with
        | none => rfl
        | some t => simp only [Option.toList_some, List.map_cons, List.map_nil, Token.shift, ← shift_ofNat,
            Nat.add_right_comm offset n]
      rw [tokensFrom_succ, tokensFrom_succ, first, Nat.add_right_comm, ih, List.map_append]

theorem tokensAt_newline (b : List Char) (closed : ∀ t ∈ tokensAt offset cs, t.kind ≠ .error .unterminated) :
    tokensAt offset (cs ++ '\n' :: b) = tokensAt offset cs ++ tokensAt (offset + byteLength cs + 1) b := by
  induction size : cs.length using Nat.strong_induction_on generalizing cs offset with
  | _ size ih =>
  cases cs with
  | nil =>
    exact tokensAt_blank (by decide) offset b
  | cons c cs =>
    by_cases blank : isSpace c = true
    · rw [tokensAt_blank blank] at closed
      rw [List.cons_append, tokensAt_blank blank, tokensAt_blank blank, byteLength_cons, ← Nat.add_assoc,
        ih cs.length (by simp [← size]) closed rfl]
    · rw [tokensAt_cons] at closed
      obtain ⟨own, others⟩ := List.forall_mem_append.1 closed
      have ends : (piece c cs).Closed := by
        intro text token
        unfold Piece.tokenAt at own
        rw [token] at own
        exact own _ (List.mem_singleton_self _) rfl
      have whole := congrArg byteLength (piece_append c cs)
      rw [byteLength_append] at whole
      have rest := ih _ (size ▸ length_rest_lt c cs) others rfl
      rw [List.cons_append, tokensAt_cons, piece_newline (Bool.eq_false_iff.2 blank) ends, tokensAt_cons, ← whole,
        List.append_assoc, ← Nat.add_assoc, ← rest]
      rfl

/-- If nothing is left open in front of a line break, the tokens are those in front of it, and then those behind it in
their places. -/
theorem tokens_newline (a b : String) (closed : ∀ t ∈ tokens a, t.kind ≠ .error .unterminated) :
    tokens (a ++ "\n" ++ b) = tokens a ++ (tokens b).map (Token.shift (a.utf8ByteSize + 1)) := by
  have split : tokensAt 0 (a.toList ++ '\n' :: b.toList) = _ := tokensAt_newline b.toList closed
  have parts : (a ++ "\n" ++ b).toList = a.toList ++ '\n' :: b.toList := by simp
  unfold tokens
  dsimp only
  rw [← tokensFrom_shift, ← byteLength_toList, parts]
  simpa [tokensAt, Nat.add_assoc] using split

/-!
A number that would go on with the digit behind the break, and a comment that ends with it.
-/
namespace Broken

def above : String := "a \u00e9 1e"

def below : String := "5 // 6\n*/"

theorem tokens_newline_exponent : (∀ t ∈ tokens above, t.kind ≠ .error .unterminated) ∧
    tokens (above ++ "\n" ++ below) = tokens above ++ (tokens below).map (Token.shift (above.utf8ByteSize + 1)) ∧
    (tokens (above ++ "\n" ++ below)).map (fun t => (t.text, t.span.start, t.span.stop)) =
      [("a", 0, 1), ("", 2, 4), ("1", 5, 6), ("e", 6, 7), ("5", 8, 9), ("*", 15, 16), ("/", 16, 17)] := by
  have closed : ∀ t ∈ tokens above, t.kind ≠ .error .unterminated := by decide +kernel
  exact ⟨closed, tokens_newline above below closed, by decide +kernel⟩

end Broken

end Lexer
end Tickwise
