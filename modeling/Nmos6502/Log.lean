set_option autoImplicit false

namespace Nmos6502.Log

inductive Level where
  | trace
  | debug
  | error
  deriving DecidableEq, Repr

structure Entry where
  level : Level
  message : String
  deriving DecidableEq, Repr

end Nmos6502.Log
