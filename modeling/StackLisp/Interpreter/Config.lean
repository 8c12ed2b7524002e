import StackLisp.Image.Random
import StackLisp.Text.Numeral
import StackLisp.Text.Quoted

/-!
# Configuration

The settings of an interpreter, and how the environment variables `SECD_TRACE`
and `SECD_MAX_STEPS` change them.
-/

namespace StackLisp

/-- The settings of an interpreter. -/
structure Config where
  /-- Upper bound on pairs and frames together. Up to `2 ^ 32`, their positions fit into 32
      bits. -/
  heapCapacity : Nat := 50000000
  /-- The most instructions of a run. -/
  maxSteps : Option Nat := none
  /-- Whether every instruction is logged. -/
  trace : Bool := false
  /-- Whether the prelude is loaded. -/
  loadPrelude : Bool := true
  /-- Whether variables without binding or value are warned about. -/
  warnFreeVariables : Bool := true
  /-- What `random` chooses by. -/
  draws : Draws := {}
deriving DecidableEq, Repr, Inhabited

namespace Config

/-- The environment variables that settings are taken from. -/
structure Environment where
  trace : Option String := none
  maxSteps : Option String := none
deriving DecidableEq, Repr

/-- The settings of an environment, and the warnings about it: `SECD_TRACE` turns
    tracing on by `1` only, and `SECD_MAX_STEPS` has to be a count. -/
def ofEnvironment (env : Environment) : Config × List String :=
  let config : Config := { trace := env.trace == some "1" }
  match env.maxSteps with
  | none => (config, [])
  | some text =>
    match Text.count? text.toList with
    | some n => ({ config with maxSteps := some n }, [])
    | none => (config, [s!"ignoring SECD_MAX_STEPS={Text.quoted text}: not a number"])

end Config

end StackLisp
