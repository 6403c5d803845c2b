import Cookbook.ModSecurity.Text.Hex

/-!
# Operators

What the operators of a rule get and return.
-/

namespace Cookbook.ModSecurity.Operators

open Cookbook.ModSecurity.Text

/-- `msre_var`, as far as the operators read it. -/
structure MsreVar where
  name : Bytes
  value : Option Bytes

/-- What an operator returns, and the text in `*error_msg`. -/
structure OperatorResult where
  rc : Int
  errorMsg : Option Bytes
  deriving DecidableEq, Repr

end Cookbook.ModSecurity.Operators
