import Tickwise.Number.Integer
set_option autoImplicit false

/-!
# Escape sequences

Reads the characters of a string literal one at a time. Each reader returns what is left of the
input also when it fails, so that reading can go on after the fault.
-/
namespace Tickwise.Text

inductive EscapeError where
  | empty
  | incomplete
  | tooManyCharacters
  | invalidSequence
  deriving DecidableEq, Inhabited

def simpleEscape? : Char → Option Char
  | '0' => some '\x00'
  | 'a' => some '\x07'
  | 'b' => some '\x08'
  | 'e' => some '\x1b'
  | 'f' => some '\x0c'
  | 'n' => some '\x0a'
  | 'r' => some '\x0d'
  | 't' => some '\x09'
  | 'v' => some '\x0b'
  | '\x5c' => some '\x5c'
  | '\x27' => some '\x27'
  | '\x22' => some '\x22'
  | _ => none

def unescapeByte (cs : List Char) : Except EscapeError Char × List Char :=
  let rest := cs.drop 2
  match (cs[0]?).bind Integer.hexDigit?, (cs[1]?).bind Integer.hexDigit? with
  | some hi, some lo =>
    if hi < 8 then (.ok (Char.ofNat (16 * hi + lo)), rest) else (.error .invalidSequence, rest)
  | _, _ => (.error .incomplete, rest)

/-- At most six hexadecimal digits up to the closing brace; `code` and `count` are those read. -/
def unescapeCode (code count : Nat) : List Char → Except EscapeError Char × List Char
  | [] => (.error .incomplete, [])
  | '}' :: rest =>
    if code.isValidChar then (.ok (Char.ofNat code), rest) else (.error .invalidSequence, rest)
  | c :: rest =>
    match Integer.hexDigit? c with
    | none => (.error .invalidSequence, rest)
    | some digit =>
      if count < 6 then unescapeCode (16 * code + digit) (count + 1) rest
      else (.error .tooManyCharacters, rest)

def unescape : List Char → Except EscapeError Char × List Char
  | [] => (.error .empty, [])
  | '\x5c' :: rest =>
    match rest with
    | [] => (.error .invalidSequence, [])
    | 'x' :: more => unescapeByte more
    | 'u' :: '{' :: more => unescapeCode 0 0 more
    | 'u' :: more => (.error .invalidSequence, more.drop 1)
    | c :: more => ((simpleEscape? c).elim (.error .invalidSequence) .ok, more)
  | c :: rest => (.ok c, rest)

/-- Reads until the input is empty; the last answer says so. -/
def unescapeEach : Nat → List Char → List (Except EscapeError Char)
  | 0, _ => []
  | _ + 1, [] => [.error .empty]
  | fuel + 1, cs => (unescape cs).1 :: unescapeEach fuel (unescape cs).2

def unescapeAll? : Nat → List Char → Option (List Char)
  | _, [] => some []
  | 0, _ => none
  | fuel + 1, cs =>
    match unescape cs with
    | (.ok c, rest) => (unescapeAll? fuel rest).map (c :: ·)
    | (.error _, _) => none

end Tickwise.Text
