set_option autoImplicit false

/-! # The log

Whatever goes wrong without failing the work is written to a log, one record at a time, each with
a level that says how much it matters. -/

namespace BidQuorum

inductive LogLevel where
  | error
  | warn
  | info
  | debug
deriving DecidableEq

def LogLevel.name : LogLevel → String
  | error => "ERROR"
  | warn => "WARN"
  | info => "INFO"
  | debug => "DEBUG"

structure LogRecord where
  level : LogLevel
  text : String
deriving DecidableEq

end BidQuorum
