import TapeMachine.Proofs.Retry

namespace TapeMachine

namespace Tape

variable {t : Tape} {i j : ℕ} {v w : UInt8}

theorem read_store_self (h : i < t.size) : (t.store i v).read i = v := by
  rw [read_store, if_pos ⟨rfl, h⟩]

theorem read_store_of_ne (h : i ≠ j) : (t.store i v).read j = t.read j := by
  rw [read_store, if_neg fun hij => h hij.1]

theorem store_store (t : Tape) (i : ℕ) (v w : UInt8) : (t.store i v).store i w = t.store i w := by
  refine eq_of_read (by simp only [size_store]) fun j hj => ?_
  simp only [read_store, size_store]
  split <;> rfl

theorem store_comm (h : i ≠ j) (t : Tape) (v w : UInt8) :
    (t.store i v).store j w = (t.store j w).store i v := by
  refine eq_of_read (by simp only [size_store]) fun l hl => ?_
  simp only [read_store, size_store]
  split <;> split <;> first | rfl | omega

end Tape

namespace Machine

variable {c : Config} {p : Program}

/-- On its way from one machine to the other, `n` instructions are executed, all of them at
positions from `first` on and before `behind`. -/
inductive Passes (c : Config) (p : Program) (first behind : ℕ) : ℕ → Machine → Machine → Prop
  | refl (m : Machine) : Passes c p first behind 0 m m
  | step {n : ℕ} {m m₁ m' : Machine} {e : Effect} (hfirst : first ≤ m.ip) (hbehind : m.ip < behind)
    (hs : m.step c p = .done e m₁) (h : Passes c p first behind n m₁ m') :
    Passes c p first behind (n + 1) m m'

namespace Passes

variable {first behind k n : ℕ} {m m₁ m' : Machine} {e : Effect}

theorem single {q : ℕ} {dp : Int} {tape : Tape} {loops : LoopTable} {port : Port}
    (hfirst : first ≤ q) (hbehind : q < behind)
    (hs : (mk q dp tape loops port).step c p = .done e m') :
    Passes c p first behind 1 (mk q dp tape loops port) m' :=
  .step (Int.ofNat_le.2 hfirst) (Int.ofNat_lt.2 hbehind) hs (.refl m')

theorem trans (h : Passes c p first behind k m m₁) (h' : Passes c p first behind n m₁ m') :
    Passes c p first behind (k + n) m m' := by
  induction h with
  | refl m => rwa [Nat.zero_add]
  | step hfirst hbehind hs _ ih =>
    rw [Nat.add_right_comm]
    exact .step hfirst hbehind hs (ih h')

/-- A run without a limit goes all the way that its machine can pass inside the text. -/
theorem forward (h : Passes c p first behind n m m') (hc : c.maxSteps = none)
    (hp : behind ≤ p.size) (t : Tally) :
    ∃ t', (⟨m, t⟩ : Run).forward c p n = .running ⟨m', t'⟩ := by
  induction h generalizing t with
  | refl m => exact ⟨t, rfl⟩
  | @step n m m₁ m' e hfirst hbehind hs _ ih =>
    obtain ⟨t', ht'⟩ := ih (t.record e)
    have hh : m.hasHalted p = false := by
      rw [hasHalted, decide_eq_false_iff_not]
      omega
    have hl : c.limitReached? t.steps = none := by simp only [Config.limitReached?, hc]
    have hturn : (⟨m, t⟩ : Run).turn c p = .running ⟨m₁, t.record e⟩ := by
      rw [← p.turn_interpreter]
      exact Interpreter.turn_of_done (x := p.interpreter c) (r := ⟨m, t⟩) hh hl hs
    exact ⟨t', by rw [Run.forward, hturn]; exact ht'⟩

end Passes

-- one instruction at a time, on a cell that is there

variable {q d v : ℕ} {tape : Tape} {loops loops' : LoopTable} {port : Port} {m : Machine}

/-- Under every policy a pointer to the tape stands for the cell that it points at. -/
theorem cell_of_inside (hm : m.dp = d) (hd : d < m.tape.size) : m.cell c = .ok d := by
  have hin : 0 ≤ (d : Int) ∧ (d : Int) < m.tape.size := by omega
  rw [cell_eq_ok, hm]
  unfold BoundsPolicy.cell
  rw [if_pos hin, Int.toNat_natCast]

theorem atCell_of_inside (hm : m.dp = d) (hd : d < m.tape.size) (act : ℕ → Machine → Step) :
    m.atCell c act = act d m := by
  simp only [atCell, cell_of_inside hm hd, Tape.cover_of_lt hd]

theorem covered_of_lt (hd : d < m.tape.size) : m.covered d = m := by
  rw [covered, Tape.cover_of_lt hd]

theorem step_moveRight (hi : p.instructionAt q = .ok .moveRight) :
    (mk q d tape loops port).step c p =
      .done { instruction := .moveRight } (mk (q + 1 : ℕ) (d + 1 : ℕ) tape loops port) := by
  rw [step_eq_perform (m := mk q d tape loops port) hi]
  rfl

theorem step_moveLeft (hi : p.instructionAt q = .ok .moveLeft) :
    (mk q (d + 1 : ℕ) tape loops port).step c p =
      .done { instruction := .moveLeft } (mk (q + 1 : ℕ) d tape loops port) := by
  have hd : ((d + 1 : ℕ) : Int) - 1 = d := by omega
  rw [step_eq_perform (m := mk q (d + 1 : ℕ) tape loops port) hi]
  simp only [perform, advance, hd]
  rfl

theorem step_increment (hi : p.instructionAt q = .ok .increment) (hd : d < tape.size) :
    (mk q d tape loops port).step c p = .done { instruction := .increment }
      (mk (q + 1 : ℕ) d (tape.store d (tape.read d + 1)) loops port) := by
  rw [step_eq_perform (m := mk q d tape loops port) hi]
  simp only [perform, atCell_of_inside (m := mk q d tape loops port) rfl hd]
  rfl

theorem step_decrement (hi : p.instructionAt q = .ok .decrement) (hd : d < tape.size) :
    (mk q d tape loops port).step c p = .done { instruction := .decrement }
      (mk (q + 1 : ℕ) d (tape.store d (tape.read d - 1)) loops port) := by
  rw [step_eq_perform (m := mk q d tape loops port) hi]
  simp only [perform, atCell_of_inside (m := mk q d tape loops port) rfl hd]
  rfl

theorem step_write (hi : p.instructionAt q = .ok .write) (hd : d < tape.size) :
    (mk q d tape loops port).step c p =
      .done { instruction := .write, written := some (tape.read d) }
        (mk (q + 1 : ℕ) d tape loops (port.put (tape.read d))) := by
  rw [step_eq_perform (m := mk q d tape loops port) hi]
  simp only [perform, atCell_of_inside (m := mk q d tape loops port) rfl hd]
  rfl

theorem step_read_cons {b : UInt8} {rest : List UInt8} {n : ℕ} {out : Array UInt8}
    (hi : p.instructionAt q = .ok .read) (hd : d < tape.size) :
    (mk q d tape loops ⟨b :: rest, n, out⟩).step c p =
      .done { instruction := .read, read := some b }
        (mk (q + 1 : ℕ) d (tape.store d b) loops ⟨rest, n + 1, out⟩) := by
  rw [step_read_of_cons (m := mk q d tape loops ⟨b :: rest, n, out⟩) hi (cell_of_inside rfl hd) rfl,
    covered_of_lt hd]
  rfl

theorem step_read_nil {n : ℕ} {out : Array UInt8} (hi : p.instructionAt q = .ok .read)
    (hd : d < tape.size) :
    (mk q d tape loops ⟨[], n, out⟩).step c p = match c.eof with
      | .error => .failed (.inputExhausted q) (mk q d tape loops ⟨[], n, out⟩)
      | .zero => .done { instruction := .read }
        (mk (q + 1 : ℕ) d (tape.store d 0) loops ⟨[], n, out⟩)
      | .unchanged => .done { instruction := .read }
        (mk (q + 1 : ℕ) d tape loops ⟨[], n, out⟩) := by
  rw [step_read_of_nil (m := mk q d tape loops ⟨[], n, out⟩) hi (cell_of_inside rfl hd) rfl,
    covered_of_lt hd]
  rfl

/-- An opener whose closer is found leads into its loop, or past it. -/
theorem step_openLoop (hi : p.instructionAt q = .ok .openLoop) (hd : d < tape.size)
    (hr : loops.resolve p q = .ok (v, loops')) :
    (mk q d tape loops port).step c p =
      .done { instruction := .openLoop, jumpTarget := if tape.read d = 0 then some v else none }
        (mk (if tape.read d = 0 then v + 1 else q + 1 : ℕ) d tape loops' port) := by
  rw [step_eq_perform (m := mk q d tape loops port) hi]
  simp only [perform, hr, atCell_of_inside (m := mk q d tape loops' port) rfl hd]
  split <;> rfl

/-- A closer whose opener is known leads out of its loop, or back into it. -/
theorem step_closeLoop (hi : p.instructionAt q = .ok .closeLoop) (hd : d < tape.size)
    (ho : loops.openerOf q = .ok v) :
    (mk q d tape loops port).step c p =
      .done { instruction := .closeLoop, jumpTarget := if tape.read d = 0 then none else some v }
        (mk (if tape.read d = 0 then q + 1 else v + 1 : ℕ) d tape loops port) := by
  rw [step_eq_perform (m := mk q d tape loops port) hi]
  simp only [perform, atCell_of_inside (m := mk q d tape loops port) rfl hd, ho]
  split <;> rfl

end Machine

end TapeMachine
