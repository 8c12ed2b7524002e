/-!
# Instructions

The machine runs *instruction streams*: proper lists in which every opcode is
followed by its operands, `Opcode.operandCount` of them. Branch arms and
function bodies are themselves streams, carried as operands.

* Loading: `ldc x`, `ld i j`, `ldr i j`, `ldg name`, `gfn name`, `ldf fn`.
* Storing: `setl i j`, `setlr i j`, `setg name`; the value stays on the stack.
* Calling: `ap n`, `tap n` (tail call), `dum n` and `rap n` (recursive frames),
  `rtn`, `callp prim n`.
* Branching: `sel then else` with arms ending in `join`, and `tsel then else`
  whose arms run to the end of the code.
* Dynamic binding: `bind name`, `unbind name`.
* Exits: `block name`, `blockend name`, `retfrom name`, `tagbody id table`,
  `tagend`, `go id tag`.
* `pop` drops a value and `stop` ends the run.
-/

namespace StackLisp

/-- An instruction of the machine, without its operands. -/
inductive Opcode where
  | ldc | ld | ldr | ldg | gfn
  | setl | setlr | setg
  | ldf | ap | tap | rap | dum | rtn
  | sel | tsel | join
  | pop | callp
  | bind | unbind
  | block | blockend | retfrom
  | tagbody | tagend | go
  | stop
deriving DecidableEq, Repr, Inhabited

namespace Opcode

/-- The name an opcode is printed by. -/
def mnemonic : Opcode → String
  | ldc => "LDC"
  | ld => "LD"
  | ldr => "LDR"
  | ldg => "LDG"
  | gfn => "GFN"
  | setl => "SETL"
  | setlr => "SETLR"
  | setg => "SETG"
  | ldf => "LDF"
  | ap => "AP"
  | tap => "TAP"
  | rap => "RAP"
  | dum => "DUM"
  | rtn => "RTN"
  | sel => "SEL"
  | tsel => "TSEL"
  | join => "JOIN"
  | pop => "POP"
  | callp => "CALLP"
  | bind => "BIND"
  | unbind => "UNBIND"
  | block => "BLOCK"
  | blockend => "BLOCKEND"
  | retfrom => "RETFROM"
  | tagbody => "TAGBODY"
  | tagend => "TAGEND"
  | go => "GO"
  | stop => "STOP"

/-- Every opcode, once. -/
def all : List Opcode :=
  [ldc, ld, ldr, ldg, gfn, setl, setlr, setg, ldf, ap, tap, rap, dum, rtn, sel, tsel, join, pop,
    callp, bind, unbind, block, blockend, retfrom, tagbody, tagend, go, stop]

/-- The opcode of a mnemonic. -/
def ofMnemonic? (text : String) : Option Opcode :=
  all.find? (·.mnemonic == text)

/-- The mnemonic of an opcode leads back to it. -/
@[simp]
theorem ofMnemonic?_mnemonic (code : Opcode) : ofMnemonic? code.mnemonic = some code := by
  cases code <;> decide

/-- How many operands follow the opcode in a stream. -/
def operandCount : Opcode → Nat
  | rtn | join | pop | tagend | stop => 0
  | ldc | ldg | gfn | setg | ldf | ap | tap | rap | dum | bind | unbind | block | blockend
  | retfrom => 1
  | ld | ldr | setl | setlr | sel | tsel | callp | tagbody | go => 2

end Opcode

end StackLisp
