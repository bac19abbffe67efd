import Tickwise.Text.Visible
set_option autoImplicit false

/-!
# Consoles

A console gives commands access to files and to the screen, in any monad.
-/
namespace Tickwise

/-- Access to files and the screen. A failure is described in words. -/
structure Console (m : Type → Type) where
  fetch : String → m (Except String (List UInt8))
  store : String → List UInt8 → m (Except String Unit)
  print : String → m Unit

inductive Severity where
  | info
  | warn
  | error
  deriving DecidableEq, Inhabited

def Severity.text : Severity → String
  | info => "INFO"
  | warn => "WARN"
  | error => "ERROR"

namespace Console

variable {m : Type → Type}

def log (c : Console m) (severity : Severity) (message : String) : m Unit :=
  c.print (severity.text ++ " " ++ Text.visible message)

end Console
end Tickwise
