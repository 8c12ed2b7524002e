import StackLisp.Compiler.Scope
import StackLisp.Image.Print
import StackLisp.Machine.Registers

/-!
# Interpreters

An interpreter is an image, the machine that runs in it and the state of the
compiler. `LispM` actions read and change all three, and what is done before a
failure stays done.

Actions on the heap, the symbols and the image are actions of the interpreter.
What only looks at the image is asked for by `asks`, `query` and `walk`, where
the latter two can fail.
-/

namespace StackLisp

/-- An image with a machine and a compiler. -/
structure Interpreter where
  image : Image
  machine : Machine := {}
  scopes : Scopes := {}
deriving Inhabited

/-- Actions of an interpreter. -/
abbrev LispM := EStateM Failure Interpreter

namespace Interpreter

variable {α : Type}

/-- An action on the image. -/
@[inline]
def onImage (x : ImageM α) : LispM α := fun s =>
  let image := s.image
  let s := { s with image := default }
  match x image with
  | .ok a image => .ok a { s with image }
  | .error e image => .error e { s with image }

instance : MonadLift ImageM LispM := ⟨onImage⟩

/-- A view of the image. -/
@[inline]
def asks (f : Image → α) : LispM α := fun s => .ok (f s.image) s

/-- A view of the image that may be refused. -/
@[inline]
def query (f : Image → Except Error α) : LispM α := fun s =>
  match f s.image with
  | .ok a => .ok a s
  | .error e => .error (.error e) s

/-- A view of the image that may be endless. -/
@[inline]
def walk (f : Image → Except Failure α) : LispM α := fun s =>
  match f s.image with
  | .ok a => .ok a s
  | .error e => .error e s

/-- A result that may be refused. -/
@[inline]
def ofExcept (x : Except Error α) : LispM α :=
  match x with
  | .ok a => pure a
  | .error e => raise e

/-- The outcome of an action, which then does not fail. -/
@[inline]
def attempt (x : LispM α) : LispM (Except Failure α) := fun s =>
  match x s with
  | .ok a s => .ok (.ok a) s
  | .error e s => .ok (.error e) s

/-- Goes on with an outcome. -/
@[inline]
def resume (result : Except Failure α) : LispM α :=
  match result with
  | .ok a => pure a
  | .error e => throw e

/-- The text of a value. -/
def shown (v : Value) : LispM String := asks (·.print v)

/-- The name of a symbol. -/
def nameOf (id : SymbolId) : LispM String := asks (·.symbols.name id)

/-- The elements of a proper list. -/
def elements? (v : Value) : LispM (Option (List Value)) := walk (·.heap.elements? v)

/-- Changes the machine. -/
@[inline]
def modifyMachine (f : Machine → Machine) : LispM Unit :=
  modify fun s => { s with machine := f s.machine }

/-- Changes the scopes. -/
@[inline]
def modifyScopes (f : Scopes → Scopes) : LispM Unit :=
  modify fun s => { s with scopes := f s.scopes }

end Interpreter

end StackLisp
