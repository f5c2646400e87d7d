import TapeMachine.CommandLine.Job

namespace TapeMachine

/-- The next turn is a read that finds no byte, so that one has to be asked for. -/
def Run.awaitsByte (c : Config) (p : Program) (r : Run) : Bool :=
  r.machine.port.unread.isEmpty && !r.machine.hasHalted p &&
    (c.limitReached? r.tally.steps).isNone &&
    match p.instructionAt r.machine.ip with
    | .ok .read => (r.machine.cell c).isOk
    | _ => false

def Run.feed (r : Run) (more : List UInt8) : Run :=
  { r with machine := { r.machine with port := r.machine.port.feed more } }

namespace CommandLine

/-- What joins a job to its surroundings. Asked for a byte, the input gives none at its end. -/
structure Console (m : Type → Type) where
  ask : m (List UInt8)
  emit : List UInt8 → m Unit
  tell : String → m Unit

structure Streams where
  stdin : List UInt8 := []
  stdout : List UInt8 := []
  stderr : String := ""

def Console.streams : Console (StateM Streams) where
  ask := fun s => (s.stdin.take 1, { s with stdin := s.stdin.drop 1 })
  emit bytes := fun s => ((), { s with stdout := s.stdout ++ bytes })
  tell text := fun s => ((), { s with stderr := s.stderr ++ text })

namespace Job

variable {m : Type → Type} [Monad m]

/-- One turn, with its byte from the input and with all that is to be seen of it. -/
def round (j : Job) (io : Console m) (p : Program) (r : Run) : m Progress := do
  let r ← if r.awaitsByte j.session.config p then r.feed <$> io.ask else pure r
  let shown := r.machine.port.written.size
  let loops := r.machine.loops
  let next := r.turn j.session.config p
  let written := next.run.machine.port.written
  io.emit (written.extract shown written.size).toList
  io.tell (j.progressText loops next.run.machine.loops)
  return next

def rounds (j : Job) (io : Console m) (p : Program) : Nat → Run → m Progress
  | 0, r => return .running r
  | n + 1, r => do
    match ← j.round io p r with
    | .running r => j.rounds io p n r
    | ended => return ended

def conclude (j : Job) (io : Console m) (clock : Clock) (p : Progress) : m (Option Nat) :=
  match j.ending clock p with
  | none => return none
  | some (exitCode, text) => do
    io.tell text
    return some exitCode

def serve (j : Job) (io : Console m) (clock : Clock) (n : Nat) : m (Option Nat) := do
  let p := j.session.program
  j.conclude io clock (← j.rounds io p n (j.session.start []))

end Job

end CommandLine

end TapeMachine
