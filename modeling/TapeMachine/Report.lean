import TapeMachine.Text.Column
import TapeMachine.Text.Tenths

namespace TapeMachine

/-- What a run of the whole pipeline took and did; times are in seconds. -/
structure Report where
  sourceBytes : Int := 0
  sourceLines : Int := 0
  cleanTime : Float := 0
  executionTime : Float := 0
  totalTime : Float := 0
  instructionCount : Int := 0
  executionSteps : Int := 0
  bytesRead : Int := 0
  bytesWritten : Int := 0
  loopsResolved : Int := 0

namespace Report

def milliseconds (seconds : Float) : String :=
  Text.alignRight 8 (Text.oneDecimal (seconds * 1000)) ++ "ms"

def row (stage time output : String) : String :=
  "  " ++ Text.alignLeft 20 stage ++ " " ++ Text.alignRight 10 time ++ "  " ++
    Text.alignRight 30 output

def rule : String :=
  let line := fun n => String.ofList (List.replicate n '─')
  row (line 20) (line 10) (line 30)

def lines (r : Report) : List String := [
  "═══ Pipeline Statistics ═══",
  s!"  Source: {r.sourceLines} lines, {r.sourceBytes} bytes",
  "",
  row "Stage" "Time" "Output",
  rule,
  row "Clean" (milliseconds r.cleanTime) s!"{r.instructionCount} instructions",
  row "Execute (VM)" (milliseconds r.executionTime)
    s!"{r.executionSteps} steps, {r.loopsResolved} loops",
  rule,
  "  " ++ Text.alignLeft 20 "Total" ++ " " ++ milliseconds r.totalTime,
  "",
  s!"  I/O: {r.bytesRead} bytes read, {r.bytesWritten} bytes written"]

def text (r : Report) : String := "\n".intercalate r.lines

end Report

end TapeMachine
