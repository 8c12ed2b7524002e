import StackLisp.Machine.Access

/-!
# Dynamic binding

A dynamic binding replaces the value cell of its symbol and keeps the old
content on the stack of bindings; ending the binding puts it back. So the value
cell always holds the innermost binding.
-/

namespace StackLisp.Machine

open Interpreter

/-- Binds a symbol. -/
def bindSpecial (symbol : SymbolId) (v : Value) : LispM Unit := do
  let value ← asks fun image => (image.symbols.get symbol).value
  modifyMachine fun m => { m with bindings := m.bindings.push ⟨symbol, value⟩ }
  (modify fun t => (t.restoreValue symbol (some v)).enterBinding symbol : SymbolM Unit)

/-- Puts a value cell back as it was before a binding. -/
def restore (saved : SavedValue) : LispM Unit :=
  (modify fun t => (t.restoreValue saved.symbol saved.value).exitBinding saved.symbol : SymbolM Unit)

/-- Ends the innermost binding, which has to be one of `symbol`. -/
def unbindSpecial (symbol : SymbolId) : LispM Unit := do
  match ← view (·.bindings.pop?) with
  | none => fault (.unbindWithoutBinding (← nameOf symbol))
  | some (saved, bindings) =>
    modifyMachine fun m => { m with bindings }
    if saved.symbol = symbol then
      restore saved
    else
      fault (.unbindMismatch (← nameOf symbol) (← nameOf saved.symbol))

/-- Ends bindings until at most `height` are left. -/
def unwindBindings (height : Nat) : LispM Unit := do
  let bindings ← view (·.bindings)
  modifyMachine fun m => { m with bindings := m.bindings.truncate height }
  (bindings.items.take (bindings.height - height)).forM restore

end StackLisp.Machine
