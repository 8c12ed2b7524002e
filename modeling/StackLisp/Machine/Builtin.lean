import StackLisp.Machine.Call
import StackLisp.Value.Fixnum

/-!
# Primitives at run time

What each primitive does with its arguments, which it takes off the stack,
leaving its result there instead. `funcall` and `apply` leave the result to the
function they call.

Some of what an instruction does may take any number of steps: calls of calls,
the walk of a `return-from`, compiling and running a form. An instruction leaves
it as a request (`Flow.request`) to whoever runs the machine.
-/

namespace StackLisp

/-- What an instruction asks of whoever runs the machine. -/
inductive Request where
  /-- Call the value below the `argc` topmost values of the stack. -/
  | call (argc : Nat) (mode : CallMode)
  /-- Expand a form once and push the result. -/
  | macroexpandOnce (form : Value)
  /-- Expand a form until it is not a macro call and push the result. -/
  | macroexpand (form : Value)
  /-- Compile and run a form and push its value. -/
  | eval (form : Value)
  /-- Leave a block with a value. -/
  | returnFrom (target value : Value)
deriving DecidableEq, Repr

/-- How to go on after an instruction. -/
inductive Flow where
  | next
  | stop
  | request (r : Request)
deriving DecidableEq, Repr

namespace Machine

open Interpreter

/-! ## Arguments -/

/-- An argument that should have been something else. -/
def wrongArgument {α : Type} (expected : Expectation) (operation : String) (v : Value) : LispM α := do
  raise (.type (.notA expected operation (← shown v)))

/-- An integer argument. -/
def intArg (operation : String) (v : Value) : LispM Int64 :=
  match v with
  | .int n => pure n
  | _ => wrongArgument .integer operation v

/-- A symbol argument. -/
def symbolArg (operation : String) (v : Value) : LispM SymbolId :=
  match v.symbol? with
  | some id => pure id
  | none => wrongArgument .symbol operation v

/-- A pair argument. -/
def pairArg (operation : String) (v : Value) : LispM PairId :=
  match v with
  | .pair id => pure id
  | _ => wrongArgument .cons operation v

/-- The elements of a proper list argument. -/
def listArg (operation : String) (v : Value) : LispM (List Value) := do
  match ← elements? v with
  | some items => return items
  | none => wrongArgument .properList operation v

/-- Pushes the result of a primitive. -/
def done (v : Value) : LispM Flow := do
  push v
  return .next

/-- Pushes a truth value. -/
def doneBool (b : Bool) : LispM Flow := done (.ofBool b)

/-- A primitive of one argument that looks at the argument only. -/
def predicate (f : Value → Bool) : LispM Flow := do
  doneBool (f (← pop))

/-- A primitive of several integers with an integer result. -/
def arithmetic (operation : String) (argc : Nat) (f : List Int64 → Except Error Int64) :
    LispM Flow := do
  let ns ← (← popMany argc).mapM (intArg operation)
  done (.int (← ofExcept (f ns)))

/-- A primitive of one integer with an integer result. -/
def arithmeticOne (operation : String) (f : Int64 → Except Error Int64) : LispM Flow := do
  let n ← intArg operation (← pop)
  done (.int (← ofExcept (f n)))

/-- A primitive that compares integers. -/
def comparison (operation : String) (argc : Nat) (f : List Int64 → Bool) : LispM Flow := do
  let ns ← (← popMany argc).mapM (intArg operation)
  doneBool (f ns)

/-! ## Calls -/

/-- Refuses a wrong number of arguments and primitives of compile time. -/
def checkPrimitive (id : PrimitiveId) (argc : Nat) : LispM Builtin := do
  let p ← asks (·.primitives.get id)
  let name ← nameOf p.name
  checkArity p.arity name argc
  match p.builtin with
  | some b => return b
  | none => raise (.type (.operatorCalled name))

/-- Starts a call of a function or a closure. -/
def callFunction (callee : Value) (args : List Value) (mode : CallMode) : LispM Unit := do
  let argc := args.length
  match callee with
  | .function f =>
    let function ← asks (·.function f)
    let name ← asks (·.functionName f)
    if function.isMacro then
      raise (.type (.macroCalled name))
    checkArity function.arity name argc
    enter function.code .nil args mode
  | .closure pair =>
    let (f, env) ← closureParts pair
    let function ← asks (·.function f)
    checkArity function.arity (← asks (·.functionName f)) argc
    enter function.code env args mode
  | v => raise (.type (.notFunction (← shown v)))

/-! ## The primitives -/

/-- The chosen number of a range that starts at `0`. -/
def chooseBelow (limit : Int64) : LispM Int64 := do
  let (n, draws) := (← asks (·.draws)).next
  modify fun s => { s with image.draws := draws }
  return Int64.ofNat (n.toNat % limit.toNatClampNeg)

/-- The copies of lists in front of a shared tail. -/
def appendLists (lists : List Value) (tail : Value) : LispM Value :=
  lists.foldrM (fun v result => do Heap.listWithTail (← listArg "append" v) result) tail

/-- Runs a primitive on `argc` arguments. Those of a fixed number of arguments
    take that many, whatever arity they are registered with. -/
def runBuiltin (b : Builtin) (argc : Nat) : LispM Flow := do
  match b with
  | .cons =>
    let (a, d) ← popTwo
    done (← Heap.cons a d)
  | .car =>
    let v ← pop
    done (← query (·.heap.head v))
  | .cdr =>
    let v ← pop
    done (← query (·.heap.tail v))
  | .rplaca =>
    let (x, v) ← popTwo
    let id ← pairArg "rplaca" x
    (modify (·.setCar id v) : HeapM Unit)
    done x
  | .rplacd =>
    let (x, v) ← popTwo
    let id ← pairArg "rplacd" x
    (modify (·.setCdr id v) : HeapM Unit)
    done x
  | .list =>
    done (← Heap.list (← popMany argc))
  | .listStar =>
    let args ← popMany argc
    done (← Heap.listWithTail args.dropLast (args.getLastD .nil))
  | .append =>
    let args ← popMany argc
    done (← appendLists args.dropLast (args.getLastD .nil))
  | .length =>
    let items ← listArg "length" (← pop)
    done (.ofNat items.length)
  | .reverse =>
    let items ← listArg "reverse" (← pop)
    done (← Heap.list items.reverse)
  | .eq =>
    let (a, b) ← popTwo
    doneBool (a == b)
  | .equal =>
    let (a, b) ← popTwo
    doneBool (← walk (·.heap.equal a b))
  | .atom => predicate Value.isAtom
  | .consp => predicate Value.isPair
  | .listp => predicate Value.isList
  | .symbolp => predicate Value.isSymbol
  | .numberp => predicate Value.isInt
  | .functionp =>
    let v ← pop
    match v with
    | .function f => doneBool !(← asks (·.function f)).isMacro
    | _ => doneBool v.isCallable
  | .null => predicate Value.isNil
  | .add => arithmetic "+" argc Fixnum.sum
  | .sub => arithmetic "-" argc Fixnum.difference
  | .mul => arithmetic "*" argc Fixnum.product
  | .mod =>
    let (a, b) ← popTwo
    let a ← intArg "mod" a
    let b ← intArg "mod" b
    done (.int (← ofExcept (Fixnum.mod a b)))
  | .inc => arithmeticOne "1+" Fixnum.increment
  | .dec => arithmeticOne "1-" Fixnum.decrement
  | .numEq => comparison "=" argc (Fixnum.chain (· == ·))
  | .numNe => comparison "/=" argc Fixnum.distinct
  | .lt => comparison "<" argc (Fixnum.chain (· < ·))
  | .gt => comparison ">" argc (Fixnum.chain (· > ·))
  | .le => comparison "<=" argc (Fixnum.chain (· ≤ ·))
  | .ge => comparison ">=" argc (Fixnum.chain (· ≥ ·))
  | .zerop =>
    let n ← intArg "zerop" (← pop)
    doneBool (n == 0)
  | .min => arithmetic "min" argc fun ns => .ok (ns.min?.getD 0)
  | .max => arithmetic "max" argc fun ns => .ok (ns.max?.getD 0)
  | .abs => arithmeticOne "abs" Fixnum.magnitude
  | .random =>
    let limit ← intArg "random" (← pop)
    if limit ≤ 0 then
      raise (.type (.limitNotPositive limit))
    done (.int (← chooseBelow limit))
  | .print =>
    let v ← pop
    let text ← shown v
    modify fun s => { s with image.output := s.image.output ++ text ++ "\n" }
    done v
  | .error =>
    let texts ← (← popMany argc).mapM shown
    raise (.user (" ".intercalate texts))
  | .symbolValue =>
    let id ← symbolArg "symbol-value" (← pop)
    done (← query (·.symbols.value id))
  | .set =>
    let (x, v) ← popTwo
    let id ← symbolArg "set" x
    SymbolTable.setValue id v
    done v
  | .symbolFunction =>
    let id ← symbolArg "symbol-function" (← pop)
    done (← query (·.symbols.functionValue id))
  | .fboundp =>
    let id ← symbolArg "fboundp" (← pop)
    match ← asks (·.symbols.cell id) with
    | .function _ | .primitive _ => doneBool true
    | _ => doneBool false
  | .boundp =>
    let id ← symbolArg "boundp" (← pop)
    doneBool (← asks (·.symbols.isBound id))
  | .gensym =>
    let stem ← match ← popMany argc with
      | v :: _ => nameOf (← symbolArg "gensym" v)
      | [] => pure "g"
    done (.symbol (← SymbolTable.gensym stem))
  | .macroexpandOnce => return .request (.macroexpandOnce (← pop))
  | .macroexpand => return .request (.macroexpand (← pop))
  | .eval => return .request (.eval (← pop))
  | .funcall =>
    if argc = 0 then
      fault .stackUnderflow
    return .request (.call (argc - 1) (← continuationMode))
  | .apply =>
    let items ← listArg "apply" (← pop)
    pushMany items
    if argc + items.length < 2 then
      fault .stackUnderflow
    return .request (.call (argc + items.length - 2) (← continuationMode))

/-- Calls a primitive on the `argc` topmost values of the stack. -/
def callPrimitive (id : PrimitiveId) (argc : Nat) : LispM Flow := do
  runBuiltin (← checkPrimitive id argc) argc

/-- Calls the value below the `argc` topmost values of the stack on these. -/
def call (argc : Nat) (mode : CallMode) : LispM Flow := do
  let args ← popMany argc
  let callee ← pop
  match callee with
  | .primitive id =>
    pushMany args
    callPrimitive id argc
  | _ =>
    callFunction callee args mode
    return .next

end Machine

end StackLisp
