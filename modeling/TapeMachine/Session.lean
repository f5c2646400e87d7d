import TapeMachine.Report
import TapeMachine.Run

namespace TapeMachine

/-- What a clock shows each time it is read; after the last reading it stands still. -/
structure Clock where
  readings : List Float := []

def Clock.reading (c : Clock) (k : Nat) : Float :=
  match c.readings[k]? with
  | some t => t
  | none => c.readings.getLast?.getD 0

/-- The lines of a text, the last one also without a terminator. -/
def countLines (text : List Char) : Nat :=
  text.count '\n' + if text.getLast?.all (· = '\n') then 0 else 1

structure Session where
  source : String
  config : Config

namespace Session

def program (s : Session) : Program := Program.ofSource s.source

def start (s : Session) (input : List UInt8) : Run := Run.start s.config input

def forward (s : Session) (n : Nat) (r : Run) : Progress := r.forward s.config s.program n

/-- The clock is read at the start, around the cleaning, around the execution, and at the end. -/
def report (s : Session) (clock : Clock) (r : Run) : Report where
  sourceBytes := s.source.utf8ByteSize
  sourceLines := countLines s.source.toList
  cleanTime := clock.reading 2 - clock.reading 1
  executionTime := clock.reading 4 - clock.reading 3
  totalTime := clock.reading 5 - clock.reading 0
  instructionCount := s.program.size
  executionSteps := r.tally.steps
  bytesRead := r.tally.bytesRead
  bytesWritten := r.tally.bytesWritten
  loopsResolved := r.machine.loops.size

def epilogue (s : Session) (clock : Clock) (r : Run) : String :=
  if s.config.reportStats then (s.report clock r).text ++ "\n" else ""

end Session

end TapeMachine
