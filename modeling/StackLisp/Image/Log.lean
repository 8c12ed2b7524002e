/-!
# The log

Records of what an interpreter does, kept in order of time if their level is at
least as severe as the level of the log.
-/

namespace StackLisp

/-- How much is logged, from nothing to everything. -/
inductive LogLevel where
  | off | error | warn | info | debug | trace
deriving DecidableEq, Repr, Inhabited

namespace LogLevel

/-- Levels from the most to the least severe. -/
def rank : LogLevel → Nat
  | off => 0
  | error => 1
  | warn => 2
  | info => 3
  | debug => 4
  | trace => 5

/-- The name of a level. -/
def text : LogLevel → String
  | off => "OFF"
  | error => "ERROR"
  | warn => "WARN"
  | info => "INFO"
  | debug => "DEBUG"
  | trace => "TRACE"

/-- Every level, once. -/
def all : List LogLevel := [off, error, warn, info, debug, trace]

/-- The level of a name, in capitals or not. -/
def ofText? (text : String) : Option LogLevel :=
  all.find? (·.text == text.toUpper)

end LogLevel

/-- A line of the log. -/
structure LogRecord where
  level : LogLevel
  text : String
deriving DecidableEq, Repr

/-- The records so far. -/
structure Log where
  level : LogLevel := .off
  records : Array LogRecord := #[]
deriving Inhabited

namespace Log

/-- Whether records of a level are kept. -/
def keeps (log : Log) (level : LogLevel) : Bool := level.rank ≤ log.level.rank

/-- Adds a record if its level is kept; its text is worked out only then. -/
@[inline]
def add (log : Log) (level : LogLevel) (text : Unit → String) : Log :=
  if log.keeps level then { log with records := log.records.push ⟨level, text ()⟩ } else log

end Log

end StackLisp
