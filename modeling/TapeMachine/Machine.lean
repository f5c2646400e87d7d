import TapeMachine.Loop.Table
import TapeMachine.Port
import TapeMachine.Tape

namespace TapeMachine

/-- Everything that a run changes. Neither pointer is bounded. -/
structure Machine where
  ip : Int := 0
  dp : Int := 0
  tape : Tape
  loops : LoopTable := {}
  port : Port := {}
  deriving DecidableEq, Inhabited

/-- What one instruction did; `jumpTarget` is the bracket to which a taken jump went. -/
structure Effect where
  instruction : Instruction
  jumpTarget : Option Int := none
  written : Option UInt8 := none
  read : Option UInt8 := none
  deriving DecidableEq, Inhabited

/-- The outcome of one instruction. The machine of a failed one keeps what had changed before
the fault. -/
inductive Step where
  | done (effect : Effect) (machine : Machine)
  | failed (fault : Fault) (machine : Machine)
  deriving DecidableEq

def Step.machine : Step → Machine
  | done _ m => m
  | failed _ m => m

namespace Machine

def start (c : Config) (input : List UInt8) : Machine where
  tape := Tape.blank c.memorySize
  port := Port.ofInput input

def advance (m : Machine) : Machine := { m with ip := m.ip + 1 }

def jump (m : Machine) (bracket : Int) : Machine := { m with ip := bracket + 1 }

def store (m : Machine) (i : Nat) (v : UInt8) : Machine := { m with tape := m.tape.store i v }

def cell (m : Machine) (c : Config) : Except Fault Nat :=
  match c.bounds.cell m.tape.size m.dp with
  | .ok i => .ok i
  | .error .outOfRange => .error (.cellOutOfRange m.dp m.tape.size m.ip)
  | .error .noCells => .error .noCells

/-- Addresses the cell under the data pointer, appending it if need be, and goes on with it. -/
def atCell (m : Machine) (c : Config) (act : Nat → Machine → Step) : Step :=
  match m.cell c with
  | .error f => .failed f m
  | .ok i => act i { m with tape := m.tape.cover i }

def perform (c : Config) (p : Program) (m : Machine) : Instruction → Step
  | .moveRight => .done { instruction := .moveRight } { m with dp := m.dp + 1 }.advance
  | .moveLeft => .done { instruction := .moveLeft } { m with dp := m.dp - 1 }.advance
  | .increment => m.atCell c fun i m =>
    .done { instruction := .increment } (m.store i (m.tape.read i + 1)).advance
  | .decrement => m.atCell c fun i m =>
    .done { instruction := .decrement } (m.store i (m.tape.read i - 1)).advance
  | .write => m.atCell c fun i m =>
    let b := m.tape.read i
    .done { instruction := .write, written := some b } { m with port := m.port.put b }.advance
  | .read => m.atCell c fun i m =>
    match m.port.take? with
    | some (b, port) =>
      .done { instruction := .read, read := some b } ({ m with port }.store i b).advance
    | none =>
      match c.eof with
      | .error => .failed (.inputExhausted m.ip) m
      | .zero => .done { instruction := .read } (m.store i 0).advance
      | .unchanged => .done { instruction := .read } m.advance
  | .openLoop =>
    match m.loops.resolve p m.ip with
    | .error f => .failed f m
    | .ok (closer, loops) => { m with loops }.atCell c fun i m =>
      if m.tape.read i = 0 then
        .done { instruction := .openLoop, jumpTarget := some closer } (m.jump closer)
      else .done { instruction := .openLoop } m.advance
  | .closeLoop => m.atCell c fun i m =>
    if m.tape.read i = 0 then .done { instruction := .closeLoop } m.advance
    else match m.loops.openerOf m.ip with
      | .error f => .failed f m
      | .ok opener =>
        .done { instruction := .closeLoop, jumpTarget := some opener } (m.jump opener)

def step (c : Config) (p : Program) (m : Machine) : Step :=
  match p.instructionAt m.ip with
  | .error f => .failed f m
  | .ok i => m.perform c p i

def hasHalted (p : Program) (m : Machine) : Bool := p.size ≤ m.ip

end Machine

end TapeMachine
