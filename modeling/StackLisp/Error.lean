/-!
# Errors

What can go wrong while a form is read, compiled or run, as causes; the wording
is `Error.message`, and nowhere else.

* A compile-time error (`Error.isCompileTime`) is one that only compilation
  raises.
* `Error.fatal` reports code that breaks a rule of the machine. Of its causes,
  `Fault.blockNotActive` and `Fault.tagbodyNotActive` are the late non-local
  exits; the others need code that no compiler would make.
* A computation that cannot end is a `Failure.endless`, which no program can
  observe.
-/

namespace StackLisp

/-- What an operand should have been. -/
inductive Expectation where
  | integer | symbol | cons | properList
deriving DecidableEq, Repr

/-- Why an operand has the wrong type. -/
inductive TypeFault where
  /-- `car` or `cdr` of something else than a list. -/
  | notList (operation typeName : String)
  | notA (expected : Expectation) (operation value : String)
  | notFunction (value : String)
  /-- A macro's name where a function is loaded. -/
  | macroLoaded (name : String)
  | macroCalled (name : String)
  /-- An operator that exists at compile time only. -/
  | operatorCalled (name : String)
  | limitNotPositive (limit : Int64)
  | restNotList
  | reported (text : String)
deriving DecidableEq, Repr

/-- Why a computation has no fixnum result. -/
inductive ArithmeticFault where
  | overflow (operation : String)
  | divisionByZero (operation : String)
  | reported (text : String)
deriving DecidableEq, Repr

/-- What is wrong with the shape of a form. -/
inductive FormFault where
  | dottedCall (form : String)
  | dottedArguments
  | notFunctionName (value : String)
  | macroInItself (name : String)
  | oneArgument
  | branches
  | oddArguments
  | notSymbol (value : String)
  | nameAndParameters
  | redefinesForm (name : String)
  | redefinesOperator (name : String)
  | bindingsNotList
  | malformedBinding (binding : String)
  | specialVariable (name : String)
  | malformedParameters (parameters : String)
  | notParameterName (value : String)
  | misplacedKeyword
  | isSpecialForm (name : String)
  | isMacro (name : String)
  | isOperator (name : String)
  | notBlockName (value : String)
  | notTag (value : String)
  | duplicateTag (tag : String)
  | notVariableName (value : String)
  | reported (text : String)
deriving DecidableEq, Repr

/-- What a `return-from` or a `go` looks for. -/
inductive TargetKind where
  | block | tag
deriving DecidableEq, Repr

/-- What the reader stumbled on. -/
inductive SyntaxFault where
  | unexpectedEnd
  | unexpectedClose
  | stringLiteral
  | unterminatedList
  | nothingBeforeDot
  | closeAfterTail
  | unknownDispatch (c : Char)
  | endAfterHash
  | commaOutsideBackquote
  | spliceOutsideList
  | unterminatedBars
  | loneDot
  | integerOutOfRange (word : String)
deriving DecidableEq, Repr

/-- Why text cannot be read. -/
inductive ReadFault where
  /-- A fault at a byte offset of the text being read. -/
  | malformed (fault : SyntaxFault) (offset : Nat)
  | emptyInput
  | notBoundary (offset : Nat)
  | reported (text : String)
deriving DecidableEq, Repr

/-- A broken rule of the machine. -/
inductive Fault where
  | stackUnderflow
  | endsInsideInstruction
  | endsWithoutStop
  | notIndex (typeName : String)
  | notSymbol (typeName : String)
  | notOpcode (value : String)
  | noFrame (depth : Nat)
  | slotOutOfRange (slot : Nat)
  | frameAlreadyFilled
  | frameSize (values slots : Nat)
  | loadsNonFunction
  | callsNonPrimitive
  | appliesNonClosure
  | noDummyFrame
  | returnMeetsJoin
  | returnWithoutCall
  | joinWithoutSelect
  | tailCallOutsideFunction
  | closureWithoutFunction
  | unbindMismatch (name innermost : String)
  | unbindWithoutBinding (name : String)
  | blockEndMismatch
  | tagEndMismatch
  /-- The scan for the end of a block met the end of the code. -/
  | exitRanOff (name : String)
  /-- A `return-from` whose block has been left. -/
  | blockNotActive (name : String)
  | exitCrossedBlock
  /-- A `go` whose tagbody has been left. -/
  | tagbodyNotActive (tag : String)
  | tagNotInTagbody (tag : String)
  | macroWithoutExpander (name : String)
  | reported (text : String)
deriving DecidableEq, Repr

/-- An error of the interpreter. -/
inductive Error where
  /-- A call of a name without function, macro or primitive. -/
  | undefinedFunction (name : String)
  | argumentCount (name : String) (min : Nat) (max : Option Nat) (actual : Nat)
  | invalidForm (form : String) (fault : FormFault)
  | unmatchedTarget (kind : TargetKind) (name : String)
  | constantRedefinition (name : String)
  | type (fault : TypeFault)
  | arithmetic (fault : ArithmeticFault)
  | unboundVariable (name : String)
  /-- A `letrec` variable read before the frame of its `letrec` is filled. -/
  | uninitializedVariable
  | unboundFunction (name : String)
  /-- A function read while its definition is being compiled. -/
  | unfinishedFunction (name : String)
  /-- Raised by a program. -/
  | user (text : String)
  | read (fault : ReadFault)
  | io (text : String)
  /-- The step limit is used up. -/
  | stepLimit
  /-- The heap is full. -/
  | heapOverflow
  | fatal (fault : Fault)
deriving DecidableEq, Repr

/-- Why a computation has no result. -/
inductive Failure where
  | error (e : Error)
  /-- The computation does not end, for instance on a circular list. -/
  | endless
deriving DecidableEq, Repr

/-- Fails with an error. -/
def raise {m : Type → Type} [MonadExcept Failure m] {α : Type} (e : Error) : m α :=
  throw (.error e)

namespace Expectation

/-- What was expected, with its article. -/
def text : Expectation → String
  | integer => "an integer"
  | symbol => "a symbol"
  | cons => "a cons"
  | properList => "a proper list"

end Expectation

namespace TypeFault

/-- The cause in words. -/
def text : TypeFault → String
  | notList operation typeName => s!"{operation} of non-list {typeName}"
  | notA expected operation value => s!"{operation}: {value} is not {expected.text}"
  | notFunction value => s!"{value} is not a function"
  | macroLoaded name => s!"{name} names a macro, not a function"
  | macroCalled name => s!"{name} is a macro and cannot be called"
  | operatorCalled name => s!"{name} is a special operator and cannot be called at run time"
  | limitNotPositive limit => s!"random: limit must be positive, got {limit}"
  | restNotList => "a &rest variable can only hold a proper list"
  | reported text => text

end TypeFault

namespace ArithmeticFault

/-- The cause in words. -/
def text : ArithmeticFault → String
  | overflow operation => s!"{operation}: fixnum overflow"
  | divisionByZero operation => s!"{operation}: division by zero"
  | reported text => text

end ArithmeticFault

namespace FormFault

/-- The cause in words. -/
def text : FormFault → String
  | dottedCall form => s!"{form} has a dotted argument list"
  | dottedArguments => "dotted argument list"
  | notFunctionName value => s!"{value} is not a function name"
  | macroInItself name => s!"macro {name} is used in its own definition"
  | oneArgument => "expected exactly one argument"
  | branches => "expected (if test then [else])"
  | oddArguments => "odd number of arguments"
  | notSymbol value => s!"{value} is not a symbol"
  | nameAndParameters => "expected a name and a parameter list"
  | redefinesForm name => s!"cannot redefine special form {name}"
  | redefinesOperator name => s!"cannot redefine special operator {name}"
  | bindingsNotList => "bindings must be a list"
  | malformedBinding binding => s!"malformed binding {binding}"
  | specialVariable name => s!"cannot bind special variable {name}"
  | malformedParameters parameters => s!"malformed parameter list {parameters}"
  | notParameterName value => s!"{value} is not a parameter name"
  | misplacedKeyword => "misplaced lambda-list keyword"
  | isSpecialForm name => s!"{name} is a special form"
  | isMacro name => s!"{name} is a macro"
  | isOperator name => s!"{name} is a special operator"
  | notBlockName value => s!"{value} is not a block name"
  | notTag value => s!"{value} is not a valid tag"
  | duplicateTag tag => s!"duplicate tag {tag}"
  | notVariableName value => s!"{value} is not a variable name"
  | reported text => text

end FormFault

namespace TargetKind

/-- What a target is called. -/
def text : TargetKind → String
  | block => "block"
  | tag => "tag"

end TargetKind

namespace SyntaxFault

/-- The cause in words, without the place. -/
def text : SyntaxFault → String
  | unexpectedEnd => "unexpected EOF"
  | unexpectedClose => "unexpected ')'"
  | stringLiteral => "strings are not supported"
  | unterminatedList => "unterminated list"
  | nothingBeforeDot => "nothing before '.'"
  | closeAfterTail => "expected ')' after dotted tail"
  | unknownDispatch c => s!"unknown syntax #{c}"
  | endAfterHash => "unexpected EOF after '#'"
  | commaOutsideBackquote => "comma outside backquote"
  | spliceOutsideList => ",@ outside a list"
  | unterminatedBars => "unterminated |symbol|"
  | loneDot => "unexpected '.'"
  | integerOutOfRange word => s!"integer {word} out of range"

end SyntaxFault

namespace ReadFault

/-- The cause in words, and the place if there is one. -/
def text : ReadFault → String
  | malformed fault offset => s!"{fault.text} at offset {offset}"
  | emptyInput => "empty input"
  | notBoundary offset => s!"offset {offset} is not a character boundary"
  | reported text => text

end ReadFault

namespace Fault

/-- The broken rule in words. -/
def text : Fault → String
  | stackUnderflow => "operand stack underflow"
  | endsInsideInstruction => "instruction stream ended inside an instruction"
  | endsWithoutStop => "instruction stream ended without STOP"
  | notIndex typeName => s!"expected an index operand, found {typeName}"
  | notSymbol typeName => s!"expected a symbol operand, found {typeName}"
  | notOpcode value => s!"expected an opcode, found {value}"
  | noFrame depth => s!"no environment frame at depth {depth}"
  | slotOutOfRange slot => s!"frame slot {slot} out of range"
  | frameAlreadyFilled => "recursive apply on a frame that is already filled"
  | frameSize values slots => s!"recursive apply with {values} values for a {slots}-slot frame"
  | loadsNonFunction => "LDF operand is not a function template"
  | callsNonPrimitive => "CALLP operand is not a primitive"
  | appliesNonClosure => "RAP on a non-closure"
  | noDummyFrame => "RAP closure has no dummy frame"
  | returnMeetsJoin => "RTN found a join entry on the dump"
  | returnWithoutCall => "RTN with an empty dump"
  | joinWithoutSelect => "JOIN without a matching SEL"
  | tailCallOutsideFunction => "tail call outside a function body"
  | closureWithoutFunction => "closure without a function template"
  | unbindMismatch name innermost => s!"UNBIND {name} but the innermost binding is {innermost}"
  | unbindWithoutBinding name => s!"UNBIND {name} with no active binding"
  | blockEndMismatch => "BLOCKEND does not match the innermost block"
  | tagEndMismatch => "TAGEND does not match the innermost tagbody"
  | exitRanOff name => s!"return-from {name} ran off the end of the code"
  | blockNotActive name => s!"return-from {name}: block not active"
  | exitCrossedBlock => "return-from crossed a block that is not active"
  | tagbodyNotActive tag => s!"go {tag}: tagbody not active"
  | tagNotInTagbody tag => s!"go: tag {tag} not in its tagbody"
  | macroWithoutExpander name => s!"macro {name} has no expander"
  | reported text => text

end Fault

namespace Error

/-- The bounds of an argument count in words. -/
def boundsText (min : Nat) : Option Nat → String
  | some max => if max = min then s!"{min}" else s!"{min}..{max}"
  | none => s!"at least {min}"

/-- The text of an error. -/
def message : Error → String
  | undefinedFunction name => s!"undefined function: {name}"
  | argumentCount name min max actual =>
    s!"wrong number of arguments to {name}: expected {boundsText min max}, got {actual}"
  | invalidForm form fault => s!"invalid {form} form: {fault.text}"
  | unmatchedTarget kind name => s!"no enclosing {kind.text} named {name}"
  | constantRedefinition name => s!"cannot redefine constant {name}"
  | type fault => s!"type error: {fault.text}"
  | arithmetic fault => s!"arithmetic error: {fault.text}"
  | unboundVariable name => s!"unbound variable: {name}"
  | uninitializedVariable => "unbound variable: letrec binding referenced before initialization"
  | unboundFunction name => s!"unbound function: {name}"
  | unfinishedFunction name => s!"unbound function: {name} (still being defined)"
  | user text => text
  | read fault => s!"read error: {fault.text}"
  | io text => s!"I/O error: {text}"
  | stepLimit => "step limit exceeded (possible infinite loop)"
  | heapOverflow => "heap capacity exceeded"
  | fatal fault => s!"fatal: {fault.text}"

/-- Errors that only compilation raises. Wrong argument counts and redefined
    constants are not among them: running code raises them too. -/
def isCompileTime : Error → Bool
  | undefinedFunction _ | invalidForm _ _ | unmatchedTarget _ _ => true
  | _ => false

/-- Errors about the code rather than the program. -/
def isFatal : Error → Bool
  | fatal _ => true
  | _ => false

end Error

/-- The text of a failure. -/
def Failure.message : Failure → String
  | error e => e.message
  | endless => "the computation does not end"

end StackLisp
