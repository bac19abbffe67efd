import Tickwise.Text.Escape
set_option autoImplicit false

/-!
# Visible control characters

Messages name scripts, files and values, which may hold characters that steer a terminal. These are
written as escape sequences.
-/
namespace Tickwise.Text

def hexadecimal (n : Nat) : String := String.ofList (Nat.toDigits 16 n)

/-- The bell, backspace, form feed, escape and delete characters and the controls above ASCII become
escape sequences. White space and all else stay. -/
def visibleChar (c : Char) : String :=
  if c = '\x07' then "\\x07"
  else if c = '\x08' then "\\x08"
  else if c = '\x0c' then "\\x0c"
  else if c = '\x1b' then "\\x1b"
  else if c = '\x7f' then "\\x7f"
  else if 0x80 ≤ c.toNat ∧ c.toNat ≤ 0x9f then "\\u\x7b" ++ hexadecimal c.toNat ++ "\x7d"
  else c.toString

def visible (s : String) : String := String.join (s.toList.map visibleChar)

end Tickwise.Text
