import Mathlib.Data.List.TakeWhile
import Tickwise.Proofs.Source.Pieces
set_option autoImplicit false

/-!
# Tokens and gaps

A source falls into tokens and gaps of blanks and comments between them. The ranges of the tokens are cut at
characters, their texts are what stands there, and an operator is never cut short.
-/
namespace Tickwise

theorem utf8ByteSize_ofList (cs : List Char) : (String.ofList cs).utf8ByteSize = byteLength cs := by
  induction cs with
  | nil => rfl
  | cons c cs ih =>
    rw [String.ofList_cons, String.utf8ByteSize_append, ih, byteLength_cons, String.utf8ByteSize_singleton]

theorem byteLength_toList (s : String) : byteLength s.toList = s.utf8ByteSize := by
  rw [← utf8ByteSize_ofList, String.ofList_toList]

theorem byteLength_pos {cs : List Char} (h : cs ≠ []) : 0 < byteLength cs := by
  cases cs with
  | nil => contradiction
  | cons c cs =>
    have := c.utf8Size_pos
    rw [byteLength_cons]
    omega

namespace Lexer

/-- Characters between tokens, with what follows them: ASCII whitespace, a comment up to the end of its line, or one up
to the first end mark in it. -/
inductive Gap : (chars rest : List Char) → Prop
  | blanks {chars rest : List Char} (some : chars ≠ [])
      (blank : ∀ c ∈ chars, c = ' ' ∨ c = '\x09' ∨ c = '\x0a' ∨ c = '\x0c' ∨ c = '\x0d') : Gap chars rest
  | line {text rest : List Char} (within : '\n' ∉ text) (stops : ∀ c ∈ rest.head?, c = '\n') :
      Gap ('/' :: '/' :: text) rest
  | block {text rest : List Char} (first : ¬ ['*', '/'] <:+: text ++ ['*']) :
      Gap ('/' :: '*' :: (text ++ ['*', '/'])) rest

structure Longest (op : Operator) (chars input : List Char) : Prop where
  spelled : (op, chars) ∈ Operator.spellings
  front : chars <+: input
  longest : ∀ other ∈ Operator.spellings, other.2 <+: input → other.2.length ≤ chars.length

structure Lexeme (kind : TokenKind) (text chars rest : List Char) : Prop where
  some : chars ≠ []
  spelled : kind ≠ .string → (∀ cause, kind ≠ .error cause) → text = chars
  longest : ∀ op, kind = .operator op → Longest op chars (chars ++ rest)

def Piece.Sound (p : Piece) : Prop :=
  match p.token? with
  | none => Gap p.chars p.rest
  | some (kind, text) => Lexeme kind text p.chars p.rest

theorem Lexeme.of_text {kind : TokenKind} {chars rest : List Char} (some : chars ≠ [])
    (other : ∀ op, kind ≠ .operator op) : Lexeme kind chars chars rest :=
  ⟨some, fun _ _ => rfl, fun op same => absurd same (other op)⟩

theorem Lexeme.of_error {cause : TokenError} {text chars rest : List Char} (some : chars ≠ []) :
    Lexeme (.error cause) text chars rest :=
  ⟨some, fun _ none => absurd rfl (none cause), nofun⟩

theorem closeComment?_first {cs inside rest : List Char} (h : closeComment? cs = some (inside, rest)) :
    ∃ text, inside = text ++ ['*', '/'] ∧ ¬ ['*', '/'] <:+: text ++ ['*'] := by
  fun_induction closeComment? cs generalizing inside rest with
  | case1 rest =>
    cases h
    exact ⟨[], rfl, by decide⟩
  | case2 c cs other ih =>
    obtain ⟨⟨inside', rest'⟩, closed, same⟩ := Option.map_eq_some_iff.1 h
    cases same
    obtain ⟨text, rfl, first⟩ := ih closed
    refine ⟨c :: text, rfl, fun found => ?_⟩
    rcases List.infix_cons_iff.1 found with front | later
    · -- The mark in front would be what the comment is closed by.
      obtain ⟨rfl, next⟩ := List.cons_prefix_cons.1 front
      have whole := closeComment?_append closed
      rcases text with _ | ⟨d, text⟩
      · simp at next
      · obtain ⟨rfl, -⟩ := List.cons_prefix_cons.1 next
        exact other _ rfl whole.symm
    · exact first later
  | case3 => cases h

theorem comment?_sound {cs : List Char} {p : Piece} (h : comment? cs = some p) : p.Sound := by
  unfold comment? at h
  split at h
  case h_1 cs =>
    cases h
    change Gap ('/' :: '/' :: (cs.span _).1) (cs.span _).2
    rw [List.span_eq_takeWhile_dropWhile]
    refine .line (fun mem => ?_) fun c hc => ?_
    · simpa using List.mem_takeWhile_imp mem
    · have stops := List.head?_dropWhile_not (fun c : Char => decide (c ≠ '\n')) cs
      rw [Option.mem_def.1 hc] at stops
      simpa using stops
  case h_2 cs =>
    cases h
    cases closed : closeComment? cs with
    | none => exact Lexeme.of_error (by simp)
    | some r =>
      obtain ⟨text, same, first⟩ := closeComment?_first closed
      change Gap ('/' :: '*' :: r.1) r.2
      rw [same]
      exact .block first
  case h_3 => cases h

theorem spellings_sorted : Operator.spellings.Pairwise fun s t => t.2.length ≤ s.2.length := by decide

theorem spellings_ne_nil : ∀ s ∈ Operator.spellings, s.2 ≠ [] := by decide

theorem operator?_sound {cs : List Char} {p : Piece} (h : operator? cs = some p) : p.Sound := by
  obtain ⟨⟨op, chars⟩, found, rfl⟩ := Option.map_eq_some_iff.1 h
  have fits := List.find?_some found
  have front : chars <+: cs := List.isPrefixOf_iff_prefix.1 fits
  have spelled := List.mem_of_find?_eq_some found
  obtain ⟨_, before, after, parts, misses⟩ := List.find?_eq_some_iff_append.1 found
  have sorted := spellings_sorted
  rw [parts, List.pairwise_append] at sorted
  have longest : ∀ other ∈ Operator.spellings, other.2 <+: cs → other.2.length ≤ chars.length := by
    intro other mem fits
    rw [parts, List.mem_append, List.mem_cons] at mem
    rcases mem with earlier | rfl | later
    · simpa [List.isPrefixOf_iff_prefix.2 fits] using misses other earlier
    · exact Nat.le_refl _
    · exact (List.pairwise_cons.1 sorted.2.1).1 other later
  have whole : chars ++ cs.drop chars.length = cs := List.prefix_iff_eq_append.1 front
  refine ⟨spellings_ne_nil _ spelled, fun _ _ => rfl, fun op' same => ?_⟩
  cases same
  change Longest op chars (chars ++ cs.drop chars.length)
  rw [whole]
  exact ⟨spelled, front, longest⟩

theorem word_sound {c : Char} (cs : List Char) (h : isWordStart c = true) : (word (c :: cs)).Sound := by
  have starts : isWordChar c = true := by
    unfold isWordStart at h
    unfold isWordChar Char.isAlphanum
    simp only [decide_eq_true_eq, Bool.or_eq_true] at h ⊢
    exact h.imp id .inl
  unfold word
  rw [List.span_eq_takeWhile_dropWhile, List.takeWhile_cons_of_pos starts]
  unfold Piece.Sound
  dsimp only
  split <;> exact .of_text (List.cons_ne_nil _ _) nofun

theorem decimal_sound {c : Char} (cs : List Char) (h : c.isDigit ∨ c = '.') : (numeral.decimal (c :: cs)).Sound := by
  have some : (numeral.decimal (c :: cs)).chars ≠ [] := by
    unfold numeral.decimal
    rw [List.span_eq_takeWhile_dropWhile]
    by_cases digit : c.isDigit = true
    · simp [List.takeWhile_cons_of_pos digit]
    · obtain rfl := h.resolve_left digit
      simp [List.takeWhile_cons_of_neg digit, List.dropWhile_cons_of_neg digit]
  unfold Piece.Sound
  have kind : ∃ kind : TokenKind, (kind = .integer ∨ kind = .real) ∧
      (numeral.decimal (c :: cs)).token? = .some (kind, (numeral.decimal (c :: cs)).chars) := by
    unfold numeral.decimal
    exact ⟨_, ite_eq_or_eq _ _ _, rfl⟩
  obtain ⟨kind, number, token⟩ := kind
  rw [token]
  exact .of_text some fun op => by rcases number with rfl | rfl <;> simp

theorem numeral_sound {c : Char} (cs : List Char) (h : c.isDigit ∨ c = '.') : (numeral (c :: cs)).Sound := by
  unfold numeral
  split
  case h_1 x cs same =>
    cases same
    split
    · exact Lexeme.of_text (List.cons_ne_nil _ _) nofun
    · exact decimal_sound _ h
  case h_2 => exact decimal_sound cs h

theorem stringLiteral_sound (cs : List Char) : (stringLiteral cs).Sound := by
  unfold stringLiteral
  split
  case h_1 => exact Lexeme.of_error (List.cons_ne_nil _ _)
  case h_2 inside rest closed =>
    unfold Piece.Sound
    cases Text.unescapeAll? inside.length inside with
    | some text => exact ⟨List.cons_ne_nil _ _, fun none => absurd rfl none, nofun⟩
    | none => exact .of_error (List.cons_ne_nil _ _)

theorem piece_sound (c : Char) (cs : List Char) : (piece c cs).Sound := by
  unfold piece
  split
  case isTrue blank =>
    have all : ∀ d ∈ c :: cs.takeWhile isSpace, isSpace d = true := by
      intro d mem
      rcases List.mem_cons.1 mem with rfl | mem
      · exact blank
      · exact List.mem_takeWhile_imp mem
    rw [List.span_eq_takeWhile_dropWhile]
    exact Gap.blanks (List.cons_ne_nil _ _) fun d mem => of_decide_eq_true (all d mem)
  case isFalse =>
    split
    case isTrue start => exact word_sound cs start
    case isFalse =>
      split
      case isTrue digit => exact numeral_sound cs (digit.imp_right And.left)
      case isFalse =>
        split
        case isTrue => exact stringLiteral_sound cs
        case isFalse =>
          cases hc : comment? (c :: cs) with
          | some p => exact comment?_sound hc
          | none =>
            cases ho : operator? (c :: cs) with
            | some p => exact operator?_sound ho
            | none => exact Lexeme.of_error (List.cons_ne_nil _ _)

theorem piece_chars_ne_nil (c : Char) (cs : List Char) : (piece c cs).chars ≠ [] := by
  have sound := piece_sound c cs
  unfold Piece.Sound at sound
  generalize (piece c cs).chars = chars at sound ⊢
  split at sound
  · cases sound with
    | blanks some => exact some
    | line => exact List.cons_ne_nil _ _
    | block => exact List.cons_ne_nil _ _
  · exact sound.some

/-- From a byte offset on, an input is cut into gaps and these tokens. -/
inductive Cut : (offset : Nat) → List Char → List Token → Prop
  | done {offset : Nat} : Cut offset [] []
  | gap {offset : Nat} {chars rest : List Char} {ts : List Token} (between : Gap chars rest)
      (more : Cut (offset + byteLength chars) rest ts) : Cut offset (chars ++ rest) ts
  | token {offset : Nat} {kind : TokenKind} {text chars rest : List Char} {ts : List Token}
      (lexeme : Lexeme kind text chars rest) (more : Cut (offset + byteLength chars) rest ts) :
      Cut offset (chars ++ rest) (⟨kind, String.ofList text,
        ⟨UInt32.ofNat offset, UInt32.ofNat (offset + byteLength chars)⟩⟩ :: ts)

theorem cut_tokensFrom {fuel offset : Nat} {cs : List Char} (enough : cs.length ≤ fuel) :
    Cut offset cs (tokensFrom fuel offset cs) := by
  induction fuel generalizing offset cs with
  | zero =>
    obtain rfl := List.length_eq_zero_iff.1 (Nat.le_zero.1 enough)
    exact .done
  | succ fuel ih =>
    cases cs with
    | nil => exact .done
    | cons c cs =>
      have whole := piece_append c cs
      have fewer : (piece c cs).rest.length ≤ fuel := by
        have some := List.length_pos_iff.2 (piece_chars_ne_nil c cs)
        have length := congrArg List.length whole
        simp only [List.length_append, List.length_cons] at length enough
        omega
      have more := @ih (offset + byteLength (piece c cs).chars) _ fewer
      have sound := piece_sound c cs
      unfold tokensFrom
      dsimp only
      rw [← whole]
      unfold Piece.Sound at sound
      split at sound
      case h_1 none => simpa [none] using Cut.gap sound more
      case h_2 token => simpa [token] using Cut.token sound more

namespace Cut

variable {offset k : Nat} {cs : List Char} {ts : List Token} {t : Token}

theorem lexeme (h : Cut offset cs ts) (small : offset + byteLength cs < UInt32.size) (mem : t ∈ ts) :
    ∃ before chars rest text, cs = before ++ chars ++ rest ∧ t.text = String.ofList text ∧
      t.span.start.toNat = offset + byteLength before ∧
      t.span.stop.toNat = offset + byteLength (before ++ chars) ∧ Lexeme t.kind text chars rest := by
  induction h with
  | done => cases mem
  | @gap offset gap rest ts between _ ih =>
    rw [byteLength_append] at small
    obtain ⟨before, chars, after, text, rfl, same, start, stop, lexeme⟩ := ih (by omega) mem
    refine ⟨gap ++ before, chars, after, text, by simp, same, ?_, ?_, lexeme⟩
    · rw [start, byteLength_append, Nat.add_assoc]
    · rw [stop, List.append_assoc, byteLength_append gap, Nat.add_assoc]
  | @token offset kind text first rest ts lexeme _ ih =>
    rw [byteLength_append] at small
    rcases List.mem_cons.1 mem with rfl | mem
    · refine ⟨[], first, rest, text, rfl, rfl, ?_, ?_, lexeme⟩
      · exact UInt32.toNat_ofNat_of_lt' (by omega)
      · exact UInt32.toNat_ofNat_of_lt' (by omega)
    · obtain ⟨before, chars, after, text, rfl, same, start, stop, lexeme⟩ := ih (by omega) mem
      refine ⟨first ++ before, chars, after, text, by simp, same, ?_, ?_, lexeme⟩
      · rw [start, byteLength_append, Nat.add_assoc]
      · rw [stop, List.append_assoc, byteLength_append first, Nat.add_assoc]

theorem start_ge (h : Cut offset cs ts) (small : offset + byteLength cs < UInt32.size) (mem : t ∈ ts) :
    offset ≤ t.span.start.toNat := by
  obtain ⟨before, _, _, _, _, _, start, _⟩ := h.lexeme small mem
  omega

theorem ordered (h : Cut offset cs ts) (small : offset + byteLength cs < UInt32.size) :
    ts.Pairwise fun t u => t.span.stop ≤ u.span.start := by
  induction h with
  | done => exact .nil
  | gap _ _ ih =>
    rw [byteLength_append] at small
    exact ih (by omega)
  | token _ more ih =>
    rw [byteLength_append] at small
    refine .cons (fun u mem => ?_) (ih (by omega))
    have later := more.start_ge (by omega) mem
    rw [UInt32.le_iff_toNat_le, UInt32.toNat_ofNat_of_lt' (by omega)]
    exact later

theorem between (h : Cut offset cs ts) (small : offset + byteLength cs < UInt32.size) (above : offset ≤ k)
    (below : k < offset + byteLength cs)
    (outside : ∀ t ∈ ts, ¬ (t.span.start.toNat ≤ k ∧ k < t.span.stop.toNat)) :
    ∃ before gap rest, cs = before ++ gap ++ rest ∧ Gap gap rest ∧ offset + byteLength before ≤ k ∧
      k < offset + byteLength (before ++ gap) ∧ ∀ t ∈ ts, t.span.stop.toNat ≤ offset + byteLength before ∨
        offset + byteLength (before ++ gap) ≤ t.span.start.toNat := by
  induction h with
  | done => simp at below; omega
  | @gap offset gap rest ts between more ih =>
    rw [byteLength_append] at small below
    by_cases here : k < offset + byteLength gap
    · refine ⟨[], gap, rest, rfl, between, by simpa using above, here, fun t mem => .inr ?_⟩
      exact more.start_ge (by omega) mem
    · obtain ⟨before, chars, after, rfl, between, low, high, apart⟩ :=
        ih (by omega) (by omega) (by omega) outside
      refine ⟨gap ++ before, chars, after, by simp, between, ?_, ?_, fun t mem => ?_⟩
      · rw [byteLength_append]; omega
      · rw [List.append_assoc, byteLength_append gap]; omega
      · have := apart t mem
        rw [List.append_assoc, byteLength_append gap, byteLength_append gap]
        omega
  | @token offset kind text first rest ts lexeme more ih =>
    rw [byteLength_append] at small below
    obtain ⟨own, others⟩ := List.forall_mem_cons.1 outside
    have starts : (UInt32.ofNat offset).toNat = offset := UInt32.toNat_ofNat_of_lt' (by omega)
    have stops : (UInt32.ofNat (offset + byteLength first)).toNat = offset + byteLength first :=
      UInt32.toNat_ofNat_of_lt' (by omega)
    dsimp only at own
    rw [starts, stops] at own
    obtain ⟨before, chars, after, rfl, between, low, high, apart⟩ :=
      ih (by omega) (by omega) (by omega) others
    refine ⟨first ++ before, chars, after, by simp, between, ?_, ?_, List.forall_mem_cons.2 ⟨.inl ?_, fun t mem => ?_⟩⟩
    · rw [byteLength_append]; omega
    · rw [List.append_assoc, byteLength_append first]; omega
    · dsimp only
      rw [stops, byteLength_append]
      omega
    · have := apart t mem
      rw [List.append_assoc, byteLength_append first, byteLength_append first]
      omega

end Cut

/-- Tokens, in order, and gaps between them are all of a source. -/
structure Partitions (source : String) (ts : List Token) : Prop where
  /-- Ranges are not empty, and lie between characters of the source. -/
  ranges : ∀ t ∈ ts, t.span.start < t.span.stop ∧ t.span.stop.toNat ≤ source.utf8ByteSize ∧
    String.Pos.Raw.IsValid source ⟨t.span.start.toNat⟩ ∧ String.Pos.Raw.IsValid source ⟨t.span.stop.toNat⟩
  ordered : ts.Pairwise fun t u => t.span.stop ≤ u.span.start
  /-- A byte of no token is in a gap, which no token overlaps. -/
  gaps : ∀ k < source.utf8ByteSize, (∀ t ∈ ts, ¬ (t.span.start.toNat ≤ k ∧ k < t.span.stop.toNat)) →
    ∃ before gap after : String, source = before ++ gap ++ after ∧ Gap gap.toList after.toList ∧
      before.utf8ByteSize ≤ k ∧ k < (before ++ gap).utf8ByteSize ∧
      ∀ t ∈ ts, t.span.stop.toNat ≤ before.utf8ByteSize ∨ (before ++ gap).utf8ByteSize ≤ t.span.start.toNat
  /-- What stands in the range of a token is its text, unless it is a string or an error, and no operator is cut short. -/
  texts : ∀ t ∈ ts, ∃ before chars after : String, source = before ++ chars ++ after ∧
    before.utf8ByteSize = t.span.start.toNat ∧ (before ++ chars).utf8ByteSize = t.span.stop.toNat ∧
    (t.kind ≠ .string → t.isError = false → t.text = chars) ∧
    ∀ op, t.kind = .operator op → Longest op chars.toList (chars ++ after).toList

/-- Each source that positions can count is cut into its tokens and gaps. -/
theorem tokens_partition {source : String} (small : source.utf8ByteSize < UInt32.size) :
    Partitions source (tokens source) := by
  have cut : Cut 0 source.toList (tokens source) := cut_tokensFrom (Nat.le_refl _)
  have countable : 0 + byteLength source.toList < UInt32.size := by rwa [Nat.zero_add, byteLength_toList]
  have texts : ∀ t ∈ tokens source, ∃ before chars after : String, source = before ++ chars ++ after ∧
      before.utf8ByteSize = t.span.start.toNat ∧ (before ++ chars).utf8ByteSize = t.span.stop.toNat ∧
      ∃ text, t.text = String.ofList text ∧ Lexeme t.kind text chars.toList after.toList := by
    intro t mem
    obtain ⟨before, chars, rest, text, parts, same, start, stop, lexeme⟩ := cut.lexeme countable mem
    refine ⟨String.ofList before, String.ofList chars, String.ofList rest, ?_, ?_, ?_, text, same, ?_⟩
    · rw [← String.ofList_append, ← String.ofList_append, ← parts, String.ofList_toList]
    · rw [utf8ByteSize_ofList, start, Nat.zero_add]
    · rw [← String.ofList_append, utf8ByteSize_ofList, stop, Nat.zero_add]
    · rwa [String.toList_ofList, String.toList_ofList]
  refine ⟨fun t mem => ?_, cut.ordered countable, fun k below outside => ?_, fun t mem => ?_⟩
  · obtain ⟨before, chars, after, parts, start, stop, text, _, lexeme⟩ := texts t mem
    have some : 0 < chars.utf8ByteSize := by
      rw [← byteLength_toList]
      exact byteLength_pos lexeme.some
    have length := congrArg String.utf8ByteSize parts
    rw [String.utf8ByteSize_append, stop] at length
    have stop' := stop
    rw [String.utf8ByteSize_append] at stop'
    refine ⟨?_, by omega, ?_, ?_⟩
    · rw [UInt32.lt_iff_toNat_lt]
      omega
    · refine String.Pos.Raw.isValid_iff_exists_append.2 ⟨before, chars ++ after, ?_, ?_⟩
      · rw [parts, String.append_assoc]
      · rw [← start]; rfl
    · refine String.Pos.Raw.isValid_iff_exists_append.2 ⟨before ++ chars, after, parts, ?_⟩
      rw [← stop]; rfl
  · obtain ⟨before, gap, rest, parts, between, low, high, apart⟩ :=
      cut.between countable (Nat.zero_le k) (by rwa [Nat.zero_add, byteLength_toList]) outside
    refine ⟨String.ofList before, String.ofList gap, String.ofList rest, ?_, ?_, ?_, ?_, fun t mem => ?_⟩
    · rw [← String.ofList_append, ← String.ofList_append, ← parts, String.ofList_toList]
    · rwa [String.toList_ofList, String.toList_ofList]
    · rw [utf8ByteSize_ofList]; omega
    · rw [← String.ofList_append, utf8ByteSize_ofList]; omega
    · have := apart t mem
      rw [← String.ofList_append, utf8ByteSize_ofList, utf8ByteSize_ofList]
      omega
  · obtain ⟨before, chars, after, parts, start, stop, text, same, lexeme⟩ := texts t mem
    refine ⟨before, chars, after, parts, start, stop, fun other well => ?_, fun op kind => ?_⟩
    · have spelled := lexeme.spelled other fun cause wrong => ?_
      · rw [same, spelled, String.ofList_toList]
      · rw [Token.isError, wrong] at well
        cases well
    · rw [String.toList_append]
      exact lexeme.longest op kind

/-!
An operator of four characters, a number that starts with a point, a character of two bytes in a comment, a comment
with stars, and a string with an escape.
-/
namespace Mixed

def source : String := "x >>>= .5e1 // \u00e9\n/* ** */ \"\\n\""

theorem tokens_partition_mixed : source.utf8ByteSize < UInt32.size ∧
    (tokens source).map (fun t => (t.kind, t.text, t.span.start, t.span.stop)) =
      [(.identifier, "x", 0, 1), (.operator .shiftRightLogicalAssign, ">>>=", 2, 6), (.real, ".5e1", 7, 11),
        (.string, "\n", 27, 31)] ∧
    Partitions source (tokens source) := by
  have small : source.utf8ByteSize < UInt32.size := by decide +kernel
  exact ⟨small, by decide +kernel, tokens_partition small⟩

end Mixed

end Lexer
end Tickwise
