import TapeMachine.CommandLine.Console

namespace TapeMachine.Main

open CommandLine

def fileFault : IO.Error → FileFault
  | .noFileOrDirectory .. => .notFound
  | .noSuchThing .. => .notFound
  | .inappropriateType _ _ details =>
    if details = "not a directory" then .notDirectory else .isDirectory
  | .invalidArgument (some _) .. => .nameTooLong
  | .permissionDenied .. => .other "Permission denied"
  | e => .other e.toString

def readFile (path : String) : IO (Except FileFault (List UInt8)) := do
  try return .ok (← IO.FS.readBinFile path).toList
  catch e => return .error (fileFault e)

def now : IO Float := return (← IO.monoNanosNow).toFloat / 1000000000

def tell (text : String) : IO Unit := do
  unless text.isEmpty do IO.eprint text

def console : Console IO where
  ask := return (← (← IO.getStdin).read 1).toList
  emit bytes := do
    unless bytes.isEmpty do
      let sink ← IO.getStdout
      sink.write bytes.toByteArray
      sink.flush
  tell

partial def serve (j : Job) (p : Program) (r : Run) : IO Progress := do
  match ← j.round console p r with
  | .running r => serve j p r
  | ended => return ended

def finish (t : Transcript) : IO UInt32 := do
  (← IO.getStdout).write t.stdout.toByteArray
  tell t.stderr
  return UInt32.ofNat t.exitCode

def run (j : Job) : IO UInt32 := do
  let start ← now
  let beforeClean ← now
  let p ← IO.lazyPure fun _ => j.session.program
  let afterClean ← now
  let beforeExecution ← now
  let ended ← serve j p (j.session.start [])
  let afterExecution ← now
  let clock : Clock :=
    ⟨[start, beforeClean, afterClean, beforeExecution, afterExecution, ← now]⟩
  return UInt32.ofNat ((← j.conclude console clock ended).getD 0)

end TapeMachine.Main

open TapeMachine TapeMachine.CommandLine in
/-- Runs the program file that the arguments name. -/
def main (texts : List String) : IO UInt32 := do
  let content ← match Arguments.ofTexts texts with
    | .ok a => Main.readFile a.file
    | .error _ => pure (.error .notFound)
  match Stage.ofArguments texts fun _ => content with
  | .finished t => Main.finish t
  | .unusableName =>
    Main.tell (unusableNameMessage ++ "\n")
    return 1
  | .ready job => Main.run job
