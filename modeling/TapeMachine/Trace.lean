import TapeMachine.Run

namespace TapeMachine

/-- One executed instruction: its place in the run and in the program, its symbol there, what it
did, and the machine behind it. -/
structure TraceStep where
  number : Nat
  index : Int
  symbol : Char
  effect : Effect
  machine : Machine
  deriving DecidableEq

structure Trace where
  initial : Machine
  steps : Array TraceStep := #[]
  run : Run
  deriving DecidableEq, Inhabited

inductive Tracing where
  | running (trace : Trace)
  | halted (trace : Trace)
  | failed (fault : Fault) (trace : Trace)
  deriving DecidableEq, Inhabited

namespace Trace

def start (c : Config) (input : List UInt8) : Trace where
  initial := .start c input
  run := .start c input

def record (t : Trace) (symbol : Char) (e : Effect) (m : Machine) : Trace where
  initial := t.initial
  steps := t.steps.push ⟨t.steps.size, t.run.machine.ip, symbol, e, m⟩
  run := ⟨m, t.run.tally.record e⟩

def turn (c : Config) (p : Program) (t : Trace) : Tracing :=
  if t.run.machine.hasHalted p then .halted t
  else match c.limitReached? t.run.tally.steps with
    | some limit => .failed (.stepLimit limit) t
    | none =>
      match t.run.machine.step c p with
      | .done e m =>
        -- the text is read once more, for the trace alone
        match p.symbolAt t.run.machine.ip with
        | .ok symbol => .running (t.record symbol e m)
        | .error f => .failed f { t with run := ⟨m, t.run.tally.record e⟩ }
      | .failed f m => .failed f { t with run := { t.run with machine := m } }

def forward (c : Config) (p : Program) : Nat → Trace → Tracing
  | 0, t => .running t
  | n + 1, t =>
    match t.turn c p with
    | .running t => forward c p n t
    | ended => ended

/-- The written bytes, gathered from the effects alone. -/
def output (t : Trace) : List UInt8 := t.steps.toList.filterMap fun s => s.effect.written

end Trace

end TapeMachine
