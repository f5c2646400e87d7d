import TapeMachine.Machine

namespace TapeMachine

structure Tally where
  steps : Nat := 0
  bytesRead : Nat := 0
  bytesWritten : Nat := 0
  deriving DecidableEq, Inhabited

/-- A read that got no byte counts as a step only. -/
def Tally.record (t : Tally) (e : Effect) : Tally where
  steps := t.steps + 1
  bytesRead := t.bytesRead + if e.read.isSome then 1 else 0
  bytesWritten := t.bytesWritten + if e.written.isSome then 1 else 0

structure Run where
  machine : Machine
  tally : Tally := {}
  deriving DecidableEq, Inhabited

inductive Progress where
  | running (run : Run)
  | halted (run : Run)
  | failed (fault : Fault) (run : Run)
  deriving DecidableEq, Inhabited

structure Summary where
  tally : Tally
  loopsResolved : Nat
  finalMemorySize : Nat
  deriving DecidableEq

def Config.limitReached? (c : Config) (steps : Nat) : Option Nat :=
  match c.maxSteps with
  | some limit => if limit ≤ steps then some limit else none
  | none => none

namespace Run

def start (c : Config) (input : List UInt8) : Run := { machine := .start c input }

/-- The end of the program is noticed before the step limit, and the limit before the next
instruction is looked at. -/
def turn (c : Config) (p : Program) : Run → Progress
  | ⟨m, t⟩ =>
    if m.hasHalted p then .halted ⟨m, t⟩
    else match c.limitReached? t.steps with
      | some limit => .failed (.stepLimit limit) ⟨m, t⟩
      | none =>
        match m.step c p with
        | .done e m => .running ⟨m, t.record e⟩
        | .failed f m => .failed f ⟨m, t⟩

def forward (c : Config) (p : Program) : Nat → Run → Progress
  | 0, r => .running r
  | n + 1, r =>
    match r.turn c p with
    | .running r => forward c p n r
    | ended => ended

theorem forward_one (c : Config) (p : Program) (r : Run) : r.forward c p 1 = r.turn c p := by
  unfold forward
  cases r.turn c p <;> rfl

theorem forward_add (c : Config) (p : Program) (m n : Nat) (r : Run) :
    r.forward c p (m + n) = match r.forward c p m with
      | .running r => r.forward c p n
      | ended => ended := by
  induction m generalizing r with
  | zero => simp only [Nat.zero_add, forward]
  | succ m ih =>
    rw [Nat.succ_add]
    simp only [forward]
    cases r.turn c p with
    | running r' => exact ih r'
    | halted r' => rfl
    | failed f r' => rfl

def summary (r : Run) : Summary where
  tally := r.tally
  loopsResolved := r.machine.loops.size
  finalMemorySize := r.machine.tape.size

end Run

namespace Progress

def run : Progress → Run
  | running r => r
  | halted r => r
  | failed _ r => r

end Progress

end TapeMachine
