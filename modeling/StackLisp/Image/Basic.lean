import StackLisp.Heap.Equality
import StackLisp.Heap.Frame
import StackLisp.Image.Log
import StackLisp.Image.Primitive
import StackLisp.Image.Random

/-!
# Images

Everything that compilation and execution share: the heap, the symbols, the
primitives, the compiled functions, and what has been written so far. Two images
never see each other's definitions.

`ImageM` actions change an image; what is done before a failure stays done.
Actions on the heap and on the symbols are actions on the image that holds them.
-/

namespace StackLisp

/-- The state of a Lisp system, apart from what is running in it. -/
structure Image where
  heap : Heap
  symbols : SymbolTable := .initial
  primitives : PrimitiveTable := {}
  functions : Array CompiledFunction := #[]
  /-- Text printed by programs and not yet taken. -/
  output : String := ""
  /-- Whether definitions belong to the prelude. -/
  definingBuiltins : Bool := false
  warnFreeVariables : Bool := true
  draws : Draws := {}
  log : Log := {}
deriving Inhabited

/-- Actions on an image. -/
abbrev ImageM := EStateM Failure Image

namespace Image

variable {α : Type}

/-- An action on the heap of the image. -/
@[inline]
def onHeap (x : HeapM α) : ImageM α := fun image =>
  let heap := image.heap
  let image := { image with heap := default }
  match x heap with
  | .ok a heap => .ok a { image with heap }
  | .error e heap => .error e { image with heap }

instance : MonadLift HeapM ImageM := ⟨onHeap⟩

/-- An action on the symbols of the image. -/
@[inline]
def onSymbols (x : SymbolM α) : ImageM α := fun image =>
  let symbols := image.symbols
  let image := { image with symbols := default }
  match x symbols with
  | .ok a symbols => .ok a { image with symbols }
  | .error e symbols => .error e { image with symbols }

instance : MonadLift SymbolM ImageM := ⟨onSymbols⟩

/-- The function at a position. -/
def function (image : Image) (id : FunctionId) : CompiledFunction :=
  image.functions.getD id.index default

/-- The name of a function; functions without one are called `lambda`. -/
def functionName (image : Image) (id : FunctionId) : String :=
  match (image.function id).name with
  | some name => image.symbols.name name
  | none => "lambda"

/-- Enters a function into the table. -/
def addFunction (f : CompiledFunction) : ImageM FunctionId := fun image =>
  let id := ⟨image.functions.size⟩
  .ok id { image with functions := image.functions.push f }

/-- Changes a function of the table. -/
def modifyFunction (id : FunctionId) (f : CompiledFunction → CompiledFunction) : ImageM Unit :=
  fun image => .ok () { image with functions := image.functions.modify id.index f }

/-- Enters a primitive under its name and makes it the function of that name.
    Constants and special forms are refused. -/
def register (d : PrimitiveDefinition) : ImageM PrimitiveId := do
  let name ← SymbolTable.intern d.name
  if name.isSpecialForm || (← get).symbols.isConstant name then
    raise (.constantRedefinition d.name)
  let p : Primitive := { d with name }
  let id ← modifyGet fun image =>
    let (id, primitives) := image.primitives.insert p
    (id, { image with primitives })
  SymbolTable.setCell name (.primitive id)
  return id

/-- Adds a record to the log. -/
@[inline]
def record (level : LogLevel) (text : Image → String) : ImageM Unit := fun image =>
  if image.log.keeps level then
    let line := text image
    .ok () { image with log := image.log.add level fun _ => line }
  else
    .ok () image

end Image

end StackLisp
