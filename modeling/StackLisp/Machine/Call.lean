import StackLisp.Machine.Access

/-!
# Calls

A call finds its arguments on the stack, with the callee below them. Functions
and closures are entered: the arguments become a frame in front of the
environment of the callee, and the caller's continuation goes on the dump. In a
tail call the callee takes over the continuation of the function it is called
from, and the exits of that function are dropped.
-/

namespace StackLisp.Machine

open Interpreter

/-- Starts to run a function. -/
def enter (code env : Value) (args : List Value) (mode : CallMode) : LispM Unit := do
  let frame ← Heap.allocFrame args
  let env ← Heap.cons (.frame frame) env
  match mode with
  | .push =>
    let m ← view id
    pushDump (.call m.env m.control m.exits.height)
  | .tail =>
    match ← view (·.dump.top?) with
    | some (.call _ _ exits) => modifyMachine fun m => { m with exits := m.exits.truncate exits }
    | _ => fault .tailCallOutsideFunction
  modifyMachine fun m => { m with env, control := code }

/-- The function and the environment of a closure. -/
def closureParts (id : PairId) : LispM (FunctionId × Value) := do
  match ← asks (·.heap.car id) with
  | .function f => return (f, ← asks (·.heap.cdr id))
  | _ => fault .closureWithoutFunction

/-- Refuses a count of arguments that does not fit. -/
def checkArity (arity : Arity) (name : String) (argc : Nat) : LispM Unit :=
  ofExcept (arity.check name argc)

/-- Fills the dummy frame that a closure was made under and starts to run the
    closure. The dummy frame is not part of the caller's environment. -/
def applyRecursive (argc : Nat) : LispM Unit := do
  let args ← popMany argc
  let .closure pair ← pop | fault .appliesNonClosure
  let (f, env) ← closureParts pair
  let .frame frame ← query (·.heap.head env) | fault .noDummyFrame
  Heap.fillFrame frame args
  let code ← asks fun image => (image.function f).code
  let m ← view id
  let outer ← query (·.heap.tail m.env)
  pushDump (.call outer m.control m.exits.height)
  modifyMachine fun m => { m with env, control := code }

/-- Comes back from a function; its value stays on the stack. -/
def returnToCaller : LispM Unit := do
  match ← view (·.dump.pop?) with
  | some (.call env code exits, dump) =>
    modifyMachine fun m => { m with dump, env, control := code, exits := m.exits.truncate exits }
  | some (.join _, _) => fault .returnMeetsJoin
  | none => fault .returnWithoutCall

/-- Comes back from a branch. -/
def join : LispM Unit := do
  match ← view (·.dump.pop?) with
  | some (.join code, dump) => modifyMachine fun m => { m with dump, control := code }
  | _ => fault .joinWithoutSelect

/-- How a primitive calls a function: as a tail call if nothing but a return
    follows. -/
def continuationMode : LispM CallMode := do
  let m ← view id
  let returns ← asks fun image =>
    match m.control with
    | .pair id => image.heap.car id == Value.op .rtn
    | _ => false
  match m.dump.top? with
  | some (.call _ _ _) => return if returns then .tail else .push
  | _ => return .push

end StackLisp.Machine
