import Tickwise.Source.Span
set_option autoImplicit false

/-!
# Tokens

Operators and keywords with their spellings, and the tokens that a source is cut into.
-/
namespace Tickwise

inductive Operator where
  | add | sub | mul | div | rem | pow
  | shiftLeft | shiftRight | shiftRightLogical
  | eq | ne | lt | gt | le | ge
  | not | complement
  | and | or
  | bitAnd | bitOr | bitXor
  | increment | decrement
  | assign
  | addAssign | subAssign | mulAssign | divAssign | remAssign
  | bitAndAssign | bitOrAssign | bitXorAssign
  | shiftLeftAssign | shiftRightAssign | shiftRightLogicalAssign
  | question | comma | dot | semicolon | colon
  | leftParen | rightParen | leftBracket | rightBracket | leftBrace | rightBrace
  deriving DecidableEq, Inhabited

namespace Operator

def spellings : List (Operator × List Char) :=
  [(shiftRightLogicalAssign, ['>', '>', '>', '=']),
   (shiftRightLogical, ['>', '>', '>']),
   (shiftLeftAssign, ['<', '<', '=']),
   (shiftRightAssign, ['>', '>', '=']),
   (addAssign, ['+', '=']), (subAssign, ['-', '=']), (mulAssign, ['*', '=']),
   (divAssign, ['/', '=']), (remAssign, ['%', '=']), (bitAndAssign, ['&', '=']),
   (bitOrAssign, ['|', '=']), (bitXorAssign, ['^', '=']),
   (increment, ['+', '+']), (decrement, ['-', '-']), (pow, ['*', '*']),
   (and, ['&', '&']), (or, ['|', '|']), (shiftLeft, ['<', '<']), (shiftRight, ['>', '>']),
   (eq, ['=', '=']), (ne, ['!', '=']), (le, ['<', '=']), (ge, ['>', '=']),
   (add, ['+']), (sub, ['-']), (mul, ['*']), (div, ['/']), (rem, ['%']),
   (lt, ['<']), (gt, ['>']), (not, ['!']), (complement, ['~']),
   (bitAnd, ['&']), (bitOr, ['|']), (bitXor, ['^']), (assign, ['=']), (question, ['?']),
   (comma, [',']), (dot, ['.']), (semicolon, [';']), (colon, [':']),
   (leftParen, ['(']), (rightParen, [')']), (leftBracket, ['[']), (rightBracket, [']']),
   (leftBrace, ['{']), (rightBrace, ['}'])]

def compoundBase? : Operator → Option Operator
  | addAssign => some add
  | subAssign => some sub
  | mulAssign => some mul
  | divAssign => some div
  | remAssign => some rem
  | bitAndAssign => some bitAnd
  | bitOrAssign => some bitOr
  | bitXorAssign => some bitXor
  | shiftLeftAssign => some shiftLeft
  | shiftRightAssign => some shiftRight
  | shiftRightLogicalAssign => some shiftRightLogical
  | _ => none

end Operator

inductive Keyword where
  | ifWord | elseWord | whileWord | doWord | forWord
  | breakWord | continueWord | returnWord
  | switchWord | caseWord | defaultWord
  | tryWord | catchWord | throwWord
  | newWord | nullWord | trueWord | falseWord
  | externWord | classWord
  | voidWord | intWord | floatWord | boolWord | stringWord
  deriving DecidableEq, Inhabited

namespace Keyword

/-- The reserved words; `bool` has two spellings. -/
def spellings : List (String × Keyword) :=
  [("if", ifWord), ("else", elseWord), ("while", whileWord), ("do", doWord), ("for", forWord),
   ("break", breakWord), ("continue", continueWord), ("return", returnWord),
   ("switch", switchWord), ("case", caseWord), ("default", defaultWord),
   ("try", tryWord), ("catch", catchWord), ("throw", throwWord),
   ("new", newWord), ("null", nullWord), ("true", trueWord), ("false", falseWord),
   ("extern", externWord), ("class", classWord),
   ("void", voidWord), ("int", intWord), ("float", floatWord),
   ("bool", boolWord), ("boolean", boolWord), ("string", stringWord)]

def ofText? (s : String) : Option Keyword := spellings.lookup s

def isTypeName : Keyword → Bool
  | voidWord | intWord | floatWord | boolWord | stringWord => true
  | _ => false

end Keyword

inductive TokenError where
  /-- A character that begins no token, by its first UTF-8 byte. -/
  | unexpectedByte (byte : UInt8)
  | unterminated
  deriving DecidableEq, Inhabited

/-- An ASCII character in quotes, with escapes for what does not print. -/
def quotedAscii (c : Char) : String :=
  let body := match c with
    | '\x00' => "\\0"
    | '\x09' => "\\t"
    | '\x0a' => "\\n"
    | '\x0d' => "\\r"
    | '\x27' => "\\'"
    | '\x5c' => "\\\\"
    | c =>
      if c.toNat < 0x20 ∨ c.toNat = 0x7F then
        "\\u\x7b" ++ String.ofList (Nat.toDigits 16 c.toNat) ++ "\x7d"
      else c.toString
  "'" ++ body ++ "'"

def TokenError.message : TokenError → String
  | unexpectedByte b =>
    if b < 128 then "unexpected char " ++ quotedAscii (Char.ofNat b.toNat)
    else "unexpected byte " ++ String.ofList (Nat.toDigits 16 b.toNat)
  | unterminated => "unterminated literal"

inductive TokenKind where
  | identifier
  | integer
  | real
  | string
  | operator (op : Operator)
  | keyword (word : Keyword)
  | error (cause : TokenError)
  deriving DecidableEq, Inhabited

/-- A token; the text of a string is what it denotes, any other text is its spelling. -/
structure Token where
  kind : TokenKind
  text : String
  span : Span
  deriving DecidableEq, Inhabited

namespace Token

def isOp (t : Token) (op : Operator) : Bool := t.kind = .operator op

def isWord (t : Token) (word : Keyword) : Bool := t.kind = .keyword word

def isError (t : Token) : Bool := match t.kind with
  | .error _ => true
  | _ => false

end Token
end Tickwise
