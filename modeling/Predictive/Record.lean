/-!
# Log records

What the compilers and the parser report about their work: a level and a line of text.
-/

namespace Predictive

/-- How detailed a record is. -/
inductive Level
  | debug
  | trace
deriving DecidableEq

/-- The level as it is written in a log. -/
def Level.name : Level → String
  | .debug => "DEBUG"
  | .trace => "TRACE"

/-- One line of a log. -/
structure Record where
  level : Level
  message : String
deriving DecidableEq

end Predictive
