import TapeMachine.Proofs.Interpreter

namespace TapeMachine

/-- A way to read one run as another, part by part. -/
structure Reading where
  machine : Machine → Machine
  tally : Tally → Tally := id
  effect : Effect → Effect := id
  fault : Fault → Fault := id

namespace Reading

variable (g : Reading)

def run (r : Run) : Run := ⟨g.machine r.machine, g.tally r.tally⟩

def step : Step → Step
  | .done e m => .done (g.effect e) (g.machine m)
  | .failed f m => .failed (g.fault f) (g.machine m)

def progress : Progress → Progress
  | .running r => .running (g.run r)
  | .halted r => .halted (g.run r)
  | .failed f r => .failed (g.fault f) (g.run r)

def executed (a : Executed) : Executed := ⟨g.machine a.before, g.effect a.effect⟩

/-- Every turn of `x` is, read through `g`, a turn of `y`, as long as the run is `allowed` to take
it. -/
structure Kept (allowed : Run → Prop) (x y : Interpreter) : Prop where
  hasHalted : ∀ r, allowed r → y.hasHalted (g.machine r.machine) = x.hasHalted r.machine
  limit : ∀ t, y.limitReached? (g.tally t).steps = x.limitReached? t.steps
  record : ∀ t e, g.tally (t.record e) = (g.tally t).record (g.effect e)
  stepLimit : ∀ limit, g.fault (.stepLimit limit) = .stepLimit limit
  step : ∀ r, allowed r → x.hasHalted r.machine = false →
    x.limitReached? r.tally.steps = none →
      y.step (g.machine r.machine) = g.step (x.step r.machine)

variable {g} {allowed : Run → Prop} {x y : Interpreter} {r : Run}

theorem Kept.turn (h : g.Kept allowed x y) (hr : allowed r) :
    y.turn (g.run r) = g.progress (x.turn r) ∧
      y.next? (g.run r) = (x.next? r).map g.executed := by
  have halted := h.hasHalted r hr
  have limit := h.limit r.tally
  obtain ⟨hh, hx⟩ | ⟨hh, l, hl, hx⟩ | ⟨hh, hl, e, m, hs, hx⟩ | ⟨hh, hl, f, m, hs, hx⟩ :=
    x.turn_cases r
  · -- both are at the end of their programs
    have hy := Interpreter.turn_of_halted (r := g.run r) (halted.trans hh)
    rw [Interpreter.next?_of_ended (x := x) (by simp [hx]),
      Interpreter.next?_of_ended (x := y) (by simp [hy]), hx, hy]
    exact ⟨rfl, rfl⟩
  · -- both have used up their steps
    have hy := Interpreter.turn_of_limit (r := g.run r) (halted.trans hh) (limit.trans hl)
    rw [Interpreter.next?_of_ended (x := x) (by simp [hx]),
      Interpreter.next?_of_ended (x := y) (by simp [hy]), hx, hy]
    exact ⟨congrArg (Progress.failed · _) (h.stepLimit l).symm, rfl⟩
  · -- both execute an instruction
    have hstep := h.step r hr hh hl
    rw [hs] at hstep
    have hy := Interpreter.turn_of_done (r := g.run r) (halted.trans hh) (limit.trans hl) hstep
    rw [Interpreter.next?_of_done hx hs, Interpreter.next?_of_done hy hstep, hx, hy]
    refine ⟨?_, rfl⟩
    simp only [progress, run, h.record]
  · -- both fail at it
    have hstep := h.step r hr hh hl
    rw [hs] at hstep
    have hy := Interpreter.turn_of_failed (r := g.run r) (halted.trans hh) (limit.trans hl) hstep
    rw [Interpreter.next?_of_ended (x := x) (by simp [hx]),
      Interpreter.next?_of_ended (x := y) (by simp [hy]), hx, hy]
    exact ⟨rfl, rfl⟩

/-- Read through `g`, a whole run of `x` is a run of `y`. -/
theorem Kept.lockstep (h : g.Kept allowed x y) (n : ℕ)
    (ha : ∀ k < n, ∀ q, x.forward r k = .running q → allowed q) :
    y.forward (g.run r) n = g.progress (x.forward r n) ∧
      y.history (g.run r) n = (x.history r n).map g.executed := by
  induction n with
  | zero => exact ⟨rfl, rfl⟩
  | succ n ih =>
    obtain ⟨hforward, hhistory⟩ := ih fun k hk => ha k (Nat.lt_succ_of_lt hk)
    simp only [Interpreter.forward, Interpreter.history, hforward, hhistory, List.map_append]
    cases hn : x.forward r n with
    | running q =>
      obtain ⟨hturn, hnext⟩ := h.turn (ha n (Nat.lt_succ_self n) q hn)
      refine ⟨hturn, ?_⟩
      simp only [progress, hnext, Option.toList_map]
    | halted q => exact ⟨rfl, rfl⟩
    | failed f q => exact ⟨rfl, rfl⟩

def same : Reading where
  machine := id

theorem same_step (s : Step) : same.step s = s := by cases s <;> rfl

theorem same_progress (q : Progress) : same.progress q = q := by cases q <;> rfl

/-- A reading keeps what is done at the cell under the data pointer if it keeps the addressing
and what is done then. -/
theorem atCell_eq {c d : Config} {m n : Machine} {act act' : ℕ → Machine → Step}
    (hn : n = g.machine m) (ok : ∀ i, m.cell c = .ok i → n.cell d = .ok i ∧
      act' i { n with tape := n.tape.cover i } = g.step (act i { m with tape := m.tape.cover i }))
    (error : ∀ f, m.cell c = .error f → n.cell d = .error (g.fault f)) :
    n.atCell d act' = g.step (m.atCell c act) := by
  unfold Machine.atCell
  cases hc : m.cell c with
  | ok i =>
    rw [(ok i hc).1]
    exact (ok i hc).2
  | error f =>
    rw [error f hc, hn]
    rfl

end Reading

end TapeMachine
