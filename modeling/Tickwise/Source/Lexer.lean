import Tickwise.Source.Token
import Tickwise.Text.Escape
set_option autoImplicit false

/-!
# Cutting a source into tokens

A source is cut into pieces: blanks, comments and tokens. `piece` takes the piece at the front of a
nonempty input; its characters and the rest together are the input.
-/
namespace Tickwise.Lexer

structure Piece where
  chars : List Char
  rest : List Char
  token? : Option (TokenKind × List Char)

def isSpace (c : Char) : Bool :=
  c = ' ' ∨ c = '\x09' ∨ c = '\x0a' ∨ c = '\x0c' ∨ c = '\x0d'

def isWordStart (c : Char) : Bool := c = '_' ∨ c.isAlpha

def isWordChar (c : Char) : Bool := c = '_' ∨ c.isAlphanum

def isHexDigit (c : Char) : Bool := (Integer.hexDigit? c).isSome

def closeComment? : List Char → Option (List Char × List Char)
  | '*' :: '/' :: rest => some (['*', '/'], rest)
  | c :: rest => (closeComment? rest).map fun (inside, rest) => (c :: inside, rest)
  | [] => none

/-- The inside of a string literal and what follows the closing quote. A backslash keeps the
character after it from closing the string. -/
def closeString? : List Char → Option (List Char × List Char)
  | '\x22' :: rest => some ([], rest)
  | '\x5c' :: c :: rest =>
    (closeString? rest).map fun (inside, rest) => ('\x5c' :: c :: inside, rest)
  | c :: rest => (closeString? rest).map fun (inside, rest) => (c :: inside, rest)
  | [] => none

def comment? : List Char → Option Piece
  | '/' :: '/' :: cs =>
    let (line, rest) := cs.span (· ≠ '\x0a')
    some ⟨'/' :: '/' :: line, rest, none⟩
  | '/' :: '*' :: cs => some <|
    match closeComment? cs with
    | some (inside, rest) => ⟨'/' :: '*' :: inside, rest, none⟩
    | none => ⟨'/' :: '*' :: cs, [], some (.error .unterminated, [])⟩
  | _ => none

def word (cs : List Char) : Piece :=
  let (chars, rest) := cs.span isWordChar
  let kind := match Keyword.ofText? (String.ofList chars) with
    | some k => .keyword k
    | none => .identifier
  ⟨chars, rest, some (kind, chars)⟩

def exponentPart (cs : List Char) : List Char × List Char :=
  let digits (lead : List Char) (cs : List Char) : Option (List Char × List Char) :=
    match cs with
    | d :: _ => if d.isDigit then
        let (ds, rest) := cs.span Char.isDigit
        some (lead ++ ds, rest)
      else none
    | [] => none
  let part? := match cs with
    | e :: sign :: more =>
      if e = 'e' ∨ e = 'E' then
        if sign = '+' ∨ sign = '-' then digits [e, sign] more else digits [e] (sign :: more)
      else none
    | _ => none
  part?.getD ([], cs)

/-- A numeral: hexadecimal digits after `0x`, or digits with at most one point and an exponent. -/
def numeral : List Char → Piece
  | '0' :: x :: cs =>
    if x = 'x' ∨ x = 'X' then
      let (digits, rest) := cs.span isHexDigit
      ⟨'0' :: x :: digits, rest, some (.integer, '0' :: x :: digits)⟩
    else decimal ('0' :: x :: cs)
  | cs => decimal cs
where
  decimal (cs : List Char) : Piece :=
    let (whole, rest) := cs.span Char.isDigit
    let (fraction, rest) := match rest with
      | '.' :: more =>
        let (ds, rest) := more.span Char.isDigit
        ('.' :: ds, rest)
      | more => ([], more)
    let (exponent, rest) := exponentPart rest
    let chars := whole ++ fraction ++ exponent
    let kind := if fraction = [] ∧ exponent = [] then .integer else .real
    ⟨chars, rest, some (kind, chars)⟩

def stringLiteral (cs : List Char) : Piece :=
  match closeString? cs with
  | none => ⟨'\x22' :: cs, [], some (.error .unterminated, [])⟩
  | some (inside, rest) =>
    let token := match Text.unescapeAll? inside.length inside with
      | some text => (TokenKind.string, text)
      | none => (.error (.unexpectedByte 0x5C), [])
    ⟨'\x22' :: inside ++ ['\x22'], rest, some token⟩

def operator? (cs : List Char) : Option Piece :=
  (Operator.spellings.find? fun s => s.2.isPrefixOf cs).map fun (op, chars) =>
    ⟨chars, cs.drop chars.length, some (.operator op, chars)⟩

def piece (c : Char) (cs : List Char) : Piece :=
  if isSpace c then
    let (blanks, rest) := cs.span isSpace
    ⟨c :: blanks, rest, none⟩
  else if isWordStart c then word (c :: cs)
  else if c.isDigit ∨ (c = '.' ∧ cs.head?.any Char.isDigit) then numeral (c :: cs)
  else if c = '\x22' then stringLiteral cs
  else ((comment? (c :: cs)).or (operator? (c :: cs))).getD
    ⟨[c], cs, some (.error (.unexpectedByte ((String.utf8EncodeChar c).headD 0)), [])⟩

/-- The tokens of an input that begins at a byte offset, taking at most `fuel` pieces. -/
def tokensFrom : (fuel offset : Nat) → List Char → List Token
  | 0, _, _ => []
  | _ + 1, _, [] => []
  | fuel + 1, offset, c :: cs =>
    let p := piece c cs
    let stop := offset + byteLength p.chars
    let rest := tokensFrom fuel stop p.rest
    match p.token? with
    | none => rest
    | some (kind, text) =>
      ⟨kind, String.ofList text, ⟨UInt32.ofNat offset, UInt32.ofNat stop⟩⟩ :: rest

/-- The tokens of a source. Every piece has a character, so there are no more pieces than
characters. -/
def tokens (source : String) : List Token :=
  let cs := source.toList
  tokensFrom cs.length 0 cs

end Tickwise.Lexer
