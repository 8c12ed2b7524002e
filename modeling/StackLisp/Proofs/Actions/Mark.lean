import Mathlib.Tactic.DeriveEncodable
import StackLisp.Proofs.Actions.Parallel

/-!
# Marks

What is observed of a run is put into the log, as a *mark* (`Mark`). Nothing that runs
logs a record of level `off`, so these records are there for the marks: the text of
each is as long as the number of its mark says, and `Log.marks` gets the marks back. An
observed run can also be ended, by a failure that no program ends in (`stopped`).

What is logged otherwise leaves the marks alone (`record_marks`), and a mark leaves
alone everything but the log (`Interpreter.marked`).
-/

namespace StackLisp

open Interpreter

deriving instance Encodable for SymbolId, PairId, FrameId, FunctionId, PrimitiveId, Opcode

instance encodableInt64 : Encodable Int64 :=
  .ofLeftInverse Int64.toInt Int64.ofInt fun n => Int64.ofInt_toInt n

deriving instance Encodable for Value

/-- What can be observed of a run. -/
inductive Mark where
  /-- An instruction is about to be executed. -/
  | instruction
  /-- A run inside of another one is out of steps. -/
  | exhausted
  /-- The symbol that is observed has been assigned outside of its bindings. -/
  | assigned (v : Value)
  /-- A call has entered a frame, and its function requires so many arguments. -/
  | entered (frame : FrameId) (required : Nat)
  /-- The pair that is observed is a cell of the stream of a function. -/
  | held
  /-- The half of a pair that is observed is about to be written. -/
  | written
  /-- A moment is not as it should be. -/
  | fault
deriving DecidableEq, Encodable

/-- The text that stands for a mark. -/
def Mark.text (m : Mark) : String := String.ofList (List.replicate (Encodable.encode m) '|')

/-- The record that stands for a mark in the log. -/
def Mark.record (m : Mark) : LogRecord := ⟨.off, m.text⟩

/-- How a run that is observed ends at a moment that is not as it should be. Nothing that runs
    reports a fault, so this is no other failure. -/
def stopped : Failure := .error (.fatal (.reported Mark.fault.text))

/-- The mark that a record stands for, if it does for one. -/
def LogRecord.mark? (r : LogRecord) : Option Mark :=
  if r.level = .off then Encodable.decode r.text.length else none

/-- A mark can be read back from its record. -/
theorem Mark.mark?_record (m : Mark) : m.record.mark? = some m := by
  simp [LogRecord.mark?, record, text]

/-- The marks in the log. -/
def Log.marks (log : Log) : List Mark := log.records.toList.filterMap (·.mark?)

/-- What the interpreter logs by itself is no mark. -/
theorem Log.marks_add {level : LogLevel} (hlevel : level ≠ .off) (log : Log) (text : Unit → String) :
    (log.add level text).marks = log.marks := by
  unfold add
  split
  · simp [marks, LogRecord.mark?, hlevel]
  · rfl

/-- What is logged leaves the marks alone. -/
theorem Image.record_marks {level : LogLevel} (hlevel : level ≠ .off) (text : Image → String) (image : Image) :
    ∃ log, Image.record level text image = .ok () { image with log } ∧ log.marks = image.log.marks := by
  unfold Image.record
  split
  · exact ⟨_, rfl, Log.marks_add hlevel _ _⟩
  · exact ⟨image.log, rfl, rfl⟩

/-- A record of the interpreter leaves the marks as they are. -/
theorem record_marks {level : LogLevel} (hlevel : level ≠ .off) (text : Image → String) (s : Interpreter) :
    ∃ log, (liftM (Image.record level text) : LispM Unit) s = .ok () { s with image.log := log } ∧
      log.marks = s.image.log.marks := by
  obtain ⟨log, hlog, hmarks⟩ := Image.record_marks hlevel text s.image
  refine ⟨log, ?_, hmarks⟩
  change onImage (Image.record level text) s = _
  simp only [onImage, hlog]

/-- Puts a mark into the log. -/
def mark (m : Mark) : LispM Unit :=
  modify fun s => { s with image.log.records := s.image.log.records.push m.record }

/-- The interpreter with one more mark in its log. -/
def Interpreter.marked (s : Interpreter) (m : Mark) : Interpreter :=
  { s with image.log.records := s.image.log.records.push m.record }

theorem leads_mark {s : Interpreter} {m : Mark} {ok : Unit → Interpreter → Prop}
    {err : Failure → Interpreter → Prop} : Leads (mark m) s ok err ↔ ok () (s.marked m) := Iff.rfl

/-- A mark comes after all others. -/
theorem marks_marked (s : Interpreter) (m : Mark) :
    (s.marked m).image.log.marks = s.image.log.marks ++ [m] := by
  simp [Interpreter.marked, Log.marks, Mark.mark?_record]

end StackLisp
