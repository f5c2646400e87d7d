import TapeMachine.CommandLine.Arguments
import TapeMachine.Fault.Message
import TapeMachine.Session
import TapeMachine.SourceFile

namespace TapeMachine.CommandLine

structure Transcript where
  exitCode : Nat
  stdout : List UInt8 := []
  stderr : String := ""

structure Job where
  session : Session
  verbose : Bool

/-- How far the arguments alone lead. -/
inductive Stage where
  | finished (transcript : Transcript)
  /-- The name of the file holds the character that ends names. -/
  | unusableName
  | ready (job : Job)

def unusableNameMessage : String := "embedded null byte"

def Refusal.transcript : Refusal → Transcript
  | help => { exitCode := 0, stdout := helpText.toUTF8.toList }
  | usage fault => { exitCode := 2, stderr := fault.text }

def Stage.ofArguments (texts : List String) (read : String → Except FileFault (List UInt8)) :
    Stage :=
  match Arguments.ofTexts texts with
  | .error r => .finished r.transcript
  | .ok a =>
    if a.file.toList.contains '\x00' then .unusableName
    else match read a.file with
      | .error f => .finished {
          exitCode := 1
          stderr := "error: cannot read " ++ a.file ++ ": " ++ f.message ++ "\n" }
      | .ok content => .ready ⟨⟨sourceOfFile content, a.choices.config⟩, a.choices.verbose⟩

namespace Job

/-- The loops that were found between two states of a table, in order. -/
def resolvedText (before after : LoopTable) : String :=
  let found := (after.recorded.take (after.size - before.size)).reverse
  String.join (found.map fun e => s!"bfvm.brackets: Resolved bracket pair {e.1} -> {e.2}\n")

def haltedText (s : Summary) : String :=
  s!"bfvm.run: Halted after {s.tally.steps} steps ({s.loopsResolved} loops resolved, " ++
    s!"{s.tally.bytesWritten} bytes out)\n"

def abortedText : String := "bfvm.cli: Execution aborted\n<traceback>\n"

def progressText (j : Job) (before after : LoopTable) : String :=
  if j.verbose then resolvedText before after else ""

def ending (j : Job) (clock : Clock) : Progress → Option (Nat × String)
  | .running _ => none
  | .halted r =>
    some (0, (if j.verbose then haltedText r.summary else "") ++ j.session.epilogue clock r)
  | .failed f _ =>
    some (1, (if j.verbose then abortedText else "") ++ "error: " ++ f.message ++ "\n")

def transcript (j : Job) (clock : Clock) (p : Progress) : Option Transcript :=
  (j.ending clock p).map fun (exitCode, text) => {
    exitCode
    stdout := p.run.machine.port.written.toList
    stderr := j.progressText .empty p.run.machine.loops ++ text }

end Job

end TapeMachine.CommandLine
