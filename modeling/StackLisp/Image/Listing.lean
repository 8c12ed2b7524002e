import StackLisp.Image.Print

/-!
# Disassembly

An instruction stream as text, one instruction a line. The streams that an
instruction carries, branch arms and the bodies of functions, follow it, one
level further to the right.

On a stream that goes in circles the listing does not end. A descent through
more instructions than there are pairs must have met one of them twice, so the
number of pairs bounds it.
-/

namespace StackLisp.Image

/-- Whether a value is a list that starts with an opcode. -/
def isCode (image : Image) : Value → Bool
  | .pair id => (image.heap.car id).op?.isSome
  | _ => false

/-- An instruction of a stream: its line, the streams it carries, and the stream
    after it. -/
structure Listing where
  line : String
  nested : List Value
  rest : Value

/-- Adds up to `count` operands to the line of an instruction. -/
def listOperands (image : Image) : Nat → Listing → Listing
  | 0, l => l
  | count + 1, l =>
    match l.rest with
    | .pair id =>
      let operand := image.heap.car id
      let rest := image.heap.cdr id
      let next :=
        if image.isCode operand then
          { l with nested := l.nested ++ [operand], rest }
        else
          let line := l.line ++ " " ++ image.print operand
          match operand with
          | .function f => { line, nested := l.nested ++ [(image.function f).code], rest }
          | _ => { l with line, rest }
      image.listOperands count next
    | _ => l

/-- The listing of the instruction at a pair. Anything that is not an opcode has
    a line to itself. -/
def listInstruction (image : Image) (id : PairId) : Listing :=
  let rest := image.heap.cdr id
  match image.heap.car id with
  | .op code => image.listOperands code.operandCount ⟨code.mnemonic, [], rest⟩
  | v => ⟨image.print v, [], rest⟩

/-- The text of a level of nesting. -/
def indentation (level : Nat) : String := String.join (List.replicate level "  ")

/-- Writes a stream at the end of `out`, descending through at most `fuel`
    instructions. -/
def disassembleFrom (image : Image) : Nat → Nat → Value → String → Except Failure String
  | 0, _, .pair _, _ => .error .endless
  | fuel + 1, level, .pair id, out => do
    let l := image.listInstruction id
    let out := out ++ indentation level ++ l.line ++ "\n"
    let out ← l.nested.foldlM (fun out code => image.disassembleFrom fuel (level + 1) code out) out
    image.disassembleFrom fuel level l.rest out
  | _, _, _, out => .ok out

/-- The listing of an instruction stream. -/
def disassemble (image : Image) (code : Value) : Except Failure String :=
  image.disassembleFrom image.heap.pairCount 0 code ""

end StackLisp.Image
