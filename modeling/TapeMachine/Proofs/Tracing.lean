import TapeMachine.Proofs.Action
import TapeMachine.Trace

namespace TapeMachine

namespace Tracing

def trace : Tracing → Trace
  | running t => t
  | halted t => t
  | failed _ t => t

def progress : Tracing → Progress
  | running t => .running t.run
  | halted t => .halted t.run
  | failed f t => .failed f t.run

end Tracing

namespace Trace

variable {c : Config} {p : Program} {t s : Trace} {symbol : Char} {e : Effect} {m : Machine}

/-- A traced turn in which the second look into the text cannot fail. -/
theorem turn_eq (c : Config) (p : Program) (t : Trace) :
    t.turn c p = if t.run.machine.hasHalted p then .halted t
      else match c.limitReached? t.run.tally.steps with
        | some limit => .failed (.stepLimit limit) t
        | none =>
          match t.run.machine.step c p with
          | .done e m => .running (t.record e.instruction.symbol e m)
          | .failed f m => .failed f { t with run := { t.run with machine := m } } := by
  unfold turn
  split
  · rfl
  · cases c.limitReached? t.run.tally.steps with
    | some limit => rfl
    | none =>
      cases hs : t.run.machine.step c p with
      | done e m =>
        -- the instruction was decoded from the symbol that is looked up again
        simp only [Machine.symbolAt_of_step hs]
      | failed f m => rfl

theorem progress_turn (c : Config) (p : Program) (t : Trace) :
    (t.turn c p).progress = t.run.turn c p := by
  obtain ⟨initial, steps, m, tally⟩ := t
  simp only [turn_eq, Run.turn]
  split
  · rfl
  · cases c.limitReached? tally.steps with
    | some limit => rfl
    | none => cases m.step c p <;> rfl

theorem progress_forward (c : Config) (p : Program) (n : ℕ) (t : Trace) :
    (t.forward c p n).progress = t.run.forward c p n := by
  induction n generalizing t with
  | zero => rfl
  | succ n ih =>
    simp only [forward, Run.forward, ← progress_turn]
    cases t.turn c p with
    | running s => exact ih s
    | halted s => rfl
    | failed f s => rfl

theorem turn_cases (c : Config) (p : Program) (t : Trace) :
    t.turn c p = .halted t ∨ (∃ f s, t.turn c p = .failed f s) ∨
      ∃ e m, t.run.machine.step c p = .done e m ∧
        t.turn c p = .running (t.record e.instruction.symbol e m) := by
  rw [turn_eq]
  split
  · exact .inl rfl
  · cases c.limitReached? t.run.tally.steps with
    | some limit => exact .inr (.inl ⟨_, _, rfl⟩)
    | none =>
      cases hs : t.run.machine.step c p with
      | done e m => exact .inr (.inr ⟨e, m, rfl, rfl⟩)
      | failed f m => exact .inr (.inl ⟨_, _, rfl⟩)

/-- What holds at the start and is kept by every recorded step holds as long as the run goes on,
and when it has halted. -/
theorem forward_induction {I : Trace → Prop} (start : I t)
    (step : ∀ t e m, I t → t.run.machine.step c p = .done e m →
      I (t.record e.instruction.symbol e m)) {n : ℕ}
    (h : t.forward c p n = .running s ∨ t.forward c p n = .halted s) : I s := by
  induction n generalizing t with
  | zero =>
    obtain h | h := h <;> cases h
    exact start
  | succ n ih =>
    obtain ht | ⟨f, q, ht⟩ | ⟨e, m, hs, ht⟩ := turn_cases c p t <;> simp only [forward, ht] at h
    · obtain h | h := h <;> cases h
      exact start
    · obtain h | h := h <;> cases h
    · exact ih (step t e m start hs) h

/-- The machine behind the first `k` steps. -/
def machineAfter (t : Trace) : ℕ → Machine
  | 0 => t.initial
  | k + 1 => (t.steps[k]?.map TraceStep.machine).getD t.initial

theorem machineAfter_record_of_le {k : ℕ} (h : k ≤ t.steps.size) :
    (t.record symbol e m).machineAfter k = t.machineAfter k := by
  cases k with
  | zero => rfl
  | succ k =>
    have hk : k ≠ t.steps.size := by omega
    simp only [machineAfter, record, Array.getElem?_push, hk, if_false]

theorem machineAfter_record_size (t : Trace) (symbol : Char) (e : Effect) (m : Machine) :
    (t.record symbol e m).machineAfter (t.steps.size + 1) = m := by
  simp [machineAfter, record]

theorem output_record (t : Trace) (symbol : Char) (e : Effect) (m : Machine) :
    (t.record symbol e m).output = t.output ++ e.written.toList := by
  cases h : e.written <;> simp [output, record, h]

/-- Where the run is, and what it has written and counted, can be read off the steps. -/
structure Complete (t : Trace) : Prop where
  last : t.machineAfter t.steps.size = t.run.machine
  count : t.steps.size = t.run.tally.steps
  output : t.output = t.run.machine.port.written.toList

theorem Complete.start (c : Config) (input : List UInt8) : (Trace.start c input).Complete where
  last := rfl
  count := rfl
  output := rfl

theorem Complete.record (h : t.Complete) (hs : t.run.machine.step c p = .done e m) :
    (t.record symbol e m).Complete where
  last := by
    rw [show (t.record symbol e m).steps.size = t.steps.size + 1 from Array.size_push _]
    exact machineAfter_record_size t symbol e m
  count := by
    rw [show (t.record symbol e m).steps.size = t.steps.size + 1 from Array.size_push _, h.count]
    rfl
  output := by
    rw [output_record, h.output]
    exact (Machine.acts_of_step hs).written.symm

/-- Tracing changes nothing: a traced run goes on, halts and fails as the run does, with the same
machine, counts, bytes and faults. When it has halted, the written bytes, the number of executed
instructions and the machine are those of its steps. -/
theorem forward_traced (c : Config) (p : Program) (input : List UInt8) (n : ℕ) :
    ((Trace.start c input).forward c p n).progress = (Run.start c input).forward c p n ∧
    ∀ t, (Trace.start c input).forward c p n = .halted t →
      t.output = t.run.machine.port.written.toList ∧
      t.steps.size = t.run.summary.tally.steps ∧
      t.machineAfter t.steps.size = t.run.machine := by
  constructor
  · exact progress_forward c p n _
  · intro t ht
    have h : t.Complete := forward_induction (.start c input) (fun _ _ _ h hs => h.record hs)
      (.inr ht)
    exact ⟨h.output, h.count, h.last⟩

theorem traced_zero_byte :
    let c : Config := { memorySize := 1 }
    let p := Program.ofList ['.', ',', '.']
    let t := ((Trace.start c [7]).forward c p 4).trace
    (Trace.start c [7]).forward c p 4 = .halted t ∧
      (Run.start c [7]).forward c p 4 = .halted t.run ∧
      t.output = t.run.machine.port.written.toList ∧ t.output = [0, 7] ∧
      t.steps.size = t.run.summary.tally.steps ∧ t.machineAfter t.steps.size = t.run.machine := by
  intro c p t
  have ht : (Trace.start c [7]).forward c p 4 = .halted t := by decide
  obtain ⟨hrun, hsteps⟩ := forward_traced c p [7] 4
  rw [ht] at hrun
  obtain ⟨houtput, hcount, hlast⟩ := hsteps t ht
  exact ⟨ht, hrun.symm, houtput, by decide, hcount, hlast⟩

end Trace

end TapeMachine
