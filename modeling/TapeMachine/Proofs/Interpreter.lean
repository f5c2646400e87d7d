import TapeMachine.Proofs.Movement
import TapeMachine.Run

namespace TapeMachine

/-- What carries machines through a program: when a run is over, and what one instruction does. -/
structure Interpreter where
  hasHalted : Machine → Bool
  limitReached? : ℕ → Option ℕ
  step : Machine → Step

/-- An executed instruction: the machine as it was before, and what the instruction did. -/
structure Executed where
  before : Machine
  effect : Effect
  deriving DecidableEq

namespace Interpreter

def turn (x : Interpreter) (r : Run) : Progress :=
  if x.hasHalted r.machine then .halted r
  else match x.limitReached? r.tally.steps with
    | some limit => .failed (.stepLimit limit) r
    | none =>
      match x.step r.machine with
      | .done e m => .running ⟨m, r.tally.record e⟩
      | .failed f m => .failed f ⟨m, r.tally⟩

def forward (x : Interpreter) (r : Run) : ℕ → Progress
  | 0 => .running r
  | n + 1 =>
    match x.forward r n with
    | .running s => x.turn s
    | ended => ended

/-- What the next turn executes, if it comes to that. -/
def next? (x : Interpreter) (r : Run) : Option Executed :=
  match x.turn r, x.step r.machine with
  | .running _, .done e _ => some ⟨r.machine, e⟩
  | _, _ => none

/-- All that is executed in at most `n` turns, in order. -/
def history (x : Interpreter) (r : Run) : ℕ → List Executed
  | 0 => []
  | n + 1 =>
    x.history r n ++ match x.forward r n with
      | .running s => (x.next? s).toList
      | _ => []

variable {x : Interpreter} {r s : Run} {n : ℕ}

theorem turn_of_halted (h : x.hasHalted r.machine = true) : x.turn r = .halted r := by
  rw [turn, if_pos h]

theorem turn_of_limit {limit : ℕ} (h : x.hasHalted r.machine = false)
    (hl : x.limitReached? r.tally.steps = some limit) :
    x.turn r = .failed (.stepLimit limit) r := by
  simp only [turn, h, hl, Bool.false_eq_true, if_false]

theorem turn_of_done {e : Effect} {m : Machine} (h : x.hasHalted r.machine = false)
    (hl : x.limitReached? r.tally.steps = none) (hs : x.step r.machine = .done e m) :
    x.turn r = .running ⟨m, r.tally.record e⟩ := by
  simp only [turn, h, hl, hs, Bool.false_eq_true, if_false]

theorem turn_of_failed {f : Fault} {m : Machine} (h : x.hasHalted r.machine = false)
    (hl : x.limitReached? r.tally.steps = none) (hs : x.step r.machine = .failed f m) :
    x.turn r = .failed f ⟨m, r.tally⟩ := by
  simp only [turn, h, hl, hs, Bool.false_eq_true, if_false]

/-- A turn finds the run over, finds the limit reached, executes an instruction, or fails at it. -/
theorem turn_cases (x : Interpreter) (r : Run) :
    (x.hasHalted r.machine = true ∧ x.turn r = .halted r) ∨
    (x.hasHalted r.machine = false ∧ ∃ limit, x.limitReached? r.tally.steps = some limit ∧
      x.turn r = .failed (.stepLimit limit) r) ∨
    (x.hasHalted r.machine = false ∧ x.limitReached? r.tally.steps = none ∧
      ∃ e m, x.step r.machine = .done e m ∧ x.turn r = .running ⟨m, r.tally.record e⟩) ∨
    (x.hasHalted r.machine = false ∧ x.limitReached? r.tally.steps = none ∧
      ∃ f m, x.step r.machine = .failed f m ∧ x.turn r = .failed f ⟨m, r.tally⟩) := by
  cases hh : x.hasHalted r.machine with
  | true => exact .inl ⟨rfl, turn_of_halted hh⟩
  | false =>
    refine .inr ?_
    cases hl : x.limitReached? r.tally.steps with
    | some limit => exact .inl ⟨rfl, limit, rfl, turn_of_limit hh hl⟩
    | none =>
      refine .inr ?_
      cases hs : x.step r.machine with
      | done e m => exact .inl ⟨rfl, rfl, e, m, rfl, turn_of_done hh hl hs⟩
      | failed f m => exact .inr ⟨rfl, rfl, f, m, rfl, turn_of_failed hh hl hs⟩

theorem exists_done_of_turn (h : x.turn r = .running s) :
    x.hasHalted r.machine = false ∧
      ∃ e m, x.step r.machine = .done e m ∧ s = ⟨m, r.tally.record e⟩ := by
  obtain ⟨-, ht⟩ | ⟨-, l, -, ht⟩ | ⟨hh, -, e, m, hs, ht⟩ | ⟨-, -, f, m, -, ht⟩ := turn_cases x r
  · cases ht.symm.trans h
  · cases ht.symm.trans h
  · have heq : Progress.running ⟨m, r.tally.record e⟩ = .running s := ht.symm.trans h
    exact ⟨hh, e, m, hs, (Progress.running.inj heq).symm⟩
  · cases ht.symm.trans h

theorem hasHalted_of_turn (h : x.turn r = .halted s) : x.hasHalted r.machine = true ∧ s = r := by
  obtain ⟨hh, ht⟩ | ⟨-, l, -, ht⟩ | ⟨-, -, e, m, -, ht⟩ | ⟨-, -, f, m, -, ht⟩ := turn_cases x r
  · have heq : Progress.halted r = .halted s := ht.symm.trans h
    exact ⟨hh, (Progress.halted.inj heq).symm⟩
  · cases ht.symm.trans h
  · cases ht.symm.trans h
  · cases ht.symm.trans h

theorem next?_of_done {e : Effect} {m : Machine} (h : x.turn r = .running s)
    (hs : x.step r.machine = .done e m) : x.next? r = some ⟨r.machine, e⟩ := by
  simp only [next?, h, hs]

theorem next?_of_ended (h : ∀ s, x.turn r ≠ .running s) : x.next? r = none := by
  unfold next?
  split
  · exact absurd ‹_› (h _)
  · rfl

theorem exists_done_of_mem_next? {a : Executed} (h : a ∈ x.next? r) :
    a.before = r.machine ∧ x.hasHalted a.before = false ∧
      ∃ m, x.step a.before = .done a.effect m := by
  by_cases ht : ∃ s, x.turn r = .running s
  · obtain ⟨s, ht⟩ := ht
    obtain ⟨hh, e, m, hs, -⟩ := exists_done_of_turn ht
    rw [next?_of_done ht hs, Option.mem_some_iff] at h
    rw [← h]
    exact ⟨rfl, hh, m, hs⟩
  · rw [next?_of_ended (not_exists.1 ht)] at h
    cases h

theorem forward_succ_of_running (h : x.forward r n = .running s) :
    x.forward r (n + 1) = x.turn s := by
  simp only [forward, h]

theorem history_succ_of_running (h : x.forward r n = .running s) :
    x.history r (n + 1) = x.history r n ++ (x.next? s).toList := by
  simp only [history, h]

theorem forward_succ_of_ended (h : ∀ s, x.forward r n ≠ .running s) :
    x.forward r (n + 1) = x.forward r n := by
  cases hn : x.forward r n with
  | running s => exact absurd hn (h s)
  | halted s => simp only [forward, hn]
  | failed f s => simp only [forward, hn]

theorem history_succ_of_ended (h : ∀ s, x.forward r n ≠ .running s) :
    x.history r (n + 1) = x.history r n := by
  cases hn : x.forward r n with
  | running s => exact absurd hn (h s)
  | halted s => simp only [history, hn, List.append_nil]
  | failed f s => simp only [history, hn, List.append_nil]

theorem exists_turn_of_forward_succ (h : x.forward r (n + 1) = .running s) :
    ∃ q, x.forward r n = .running q ∧ x.turn q = .running s := by
  by_cases hn : ∃ q, x.forward r n = .running q
  · obtain ⟨q, hq⟩ := hn
    exact ⟨q, hq, (forward_succ_of_running hq).symm.trans h⟩
  · have hend : ∀ q, x.forward r n ≠ .running q := not_exists.1 hn
    rw [forward_succ_of_ended hend] at h
    exact absurd h (hend s)

/-- What holds at the start and is kept by every executed instruction holds as long as the run
goes on. -/
theorem running_induction {I : Run → List Executed → Prop} (start : I r [])
    (step : ∀ s es e m, I s es → x.hasHalted s.machine = false →
      x.step s.machine = .done e m → I ⟨m, s.tally.record e⟩ (es ++ [⟨s.machine, e⟩])) :
    x.forward r n = .running s → I s (x.history r n) := by
  induction n generalizing s with
  | zero =>
    intro h
    rw [← Progress.running.inj h]
    exact start
  | succ n ih =>
    intro h
    obtain ⟨q, hq, ht⟩ := exists_turn_of_forward_succ h
    obtain ⟨hh, e, m, hs, heq⟩ := exists_done_of_turn ht
    rw [history_succ_of_running hq, next?_of_done ht hs, heq]
    exact step q _ e m (ih hq) hh hs

theorem exists_running_of_ended (h : ∀ s, x.forward r n ≠ .running s) :
    ∃ k q, k < n ∧ x.forward r k = .running q ∧ x.turn q = x.forward r n ∧
      x.history r n = x.history r k := by
  induction n with
  | zero => exact absurd rfl (h r)
  | succ n ih =>
    by_cases hn : ∃ q, x.forward r n = .running q
    · obtain ⟨q, hq⟩ := hn
      have ht := forward_succ_of_running hq
      refine ⟨n, q, Nat.lt_succ_self n, hq, ht.symm, ?_⟩
      rw [history_succ_of_running hq, next?_of_ended (ht ▸ h)]
      exact List.append_nil _
    · have hend : ∀ q, x.forward r n ≠ .running q := not_exists.1 hn
      obtain ⟨k, q, hk, hq, ht, he⟩ := ih hend
      rw [forward_succ_of_ended hend, history_succ_of_ended hend]
      exact ⟨k, q, Nat.lt_succ_of_lt hk, hq, ht, he⟩

/-- What holds at the start and is kept by every instruction, executed or failed, holds wherever
the run has come to. -/
theorem history_induction {I : Run → List Executed → Prop} (start : I r [])
    (done : ∀ s es e m, I s es → x.hasHalted s.machine = false →
      x.step s.machine = .done e m → I ⟨m, s.tally.record e⟩ (es ++ [⟨s.machine, e⟩]))
    (failed : ∀ s es f m, I s es → x.hasHalted s.machine = false →
      x.step s.machine = .failed f m → I ⟨m, s.tally⟩ es) (n : ℕ) :
    I (x.forward r n).run (x.history r n) := by
  by_cases h : ∃ s, x.forward r n = .running s
  · obtain ⟨s, hs⟩ := h
    rw [hs]
    exact running_induction start done hs
  · obtain ⟨k, q, -, hq, ht, he⟩ := exists_running_of_ended (not_exists.1 h)
    have hI := running_induction start done hq
    -- the turn in which the run ended has executed nothing
    rw [he, ← ht]
    obtain ⟨-, hx⟩ | ⟨-, l, -, hx⟩ | ⟨-, -, e, m, -, hx⟩ | ⟨hh, -, f, m, hs, hx⟩ :=
      turn_cases x q <;> rw [hx]
    · exact hI
    · exact hI
    · exact absurd ⟨_, ht.symm.trans hx⟩ h
    · exact failed q _ f m hI hh hs

theorem forward_induction {I : Run → Prop} (start : I r)
    (done : ∀ s e m, I s → x.hasHalted s.machine = false → x.step s.machine = .done e m →
      I ⟨m, s.tally.record e⟩)
    (failed : ∀ s f m, I s → x.hasHalted s.machine = false → x.step s.machine = .failed f m →
      I ⟨m, s.tally⟩) (n : ℕ) : I (x.forward r n).run :=
  history_induction (I := fun s _ => I s) start (fun s _ => done s) (fun s _ => failed s) n

theorem exists_running_of_halted (h : x.forward r n = .halted s) :
    ∃ k, k < n ∧ x.forward r k = .running s ∧ x.hasHalted s.machine = true ∧
      x.history r n = x.history r k := by
  obtain ⟨k, q, hk, hq, ht, he⟩ := exists_running_of_ended (x := x) (r := r) (n := n) (by simp [h])
  obtain ⟨hh, rfl⟩ := hasHalted_of_turn (ht.trans h)
  exact ⟨k, hk, hq, hh, he⟩

theorem exists_running_of_failed {f : Fault} (h : x.forward r n = .failed f s) :
    ∃ k q, k < n ∧ x.forward r k = .running q ∧ x.turn q = .failed f s ∧
      ((∃ limit, f = .stepLimit limit ∧ x.limitReached? q.tally.steps = some limit) ∨
        x.hasHalted q.machine = false ∧ x.step q.machine = .failed f s.machine) := by
  obtain ⟨k, q, hk, hq, ht, -⟩ := exists_running_of_ended (x := x) (r := r) (n := n) (by simp [h])
  rw [h] at ht
  refine ⟨k, q, hk, hq, ht, ?_⟩
  obtain ⟨-, hx⟩ | ⟨-, limit, hl, hx⟩ | ⟨-, -, e, m, -, hx⟩ | ⟨hh, -, g, m, hs, hx⟩ :=
    turn_cases x q <;> cases hx.symm.trans ht
  · exact .inl ⟨limit, rfl, hl⟩
  · exact .inr ⟨hh, hs⟩

theorem exists_running_of_history (x : Interpreter) (r : Run) (n : ℕ) :
    ∃ k s, x.forward r k = .running s ∧ x.history r n = x.history r k := by
  by_cases h : ∃ s, x.forward r n = .running s
  · obtain ⟨s, hs⟩ := h
    exact ⟨n, s, hs, rfl⟩
  · obtain ⟨k, q, -, hq, -, he⟩ := exists_running_of_ended (not_exists.1 h)
    exact ⟨k, q, hq, he⟩

theorem exists_step_of_mem_history {a : Executed} (h : a ∈ x.history r n) :
    ∃ k s m, k < n ∧ x.forward r k = .running s ∧ s.machine = a.before ∧
      x.hasHalted a.before = false ∧ x.step a.before = .done a.effect m := by
  induction n with
  | zero => cases h
  | succ n ih =>
    have earlier (h : a ∈ x.history r n) : ∃ k s m, k < n + 1 ∧ x.forward r k = .running s ∧
        s.machine = a.before ∧ x.hasHalted a.before = false ∧
          x.step a.before = .done a.effect m := by
      obtain ⟨k, s, m, hk, hs⟩ := ih h
      exact ⟨k, s, m, Nat.lt_succ_of_lt hk, hs⟩
    by_cases hn : ∃ q, x.forward r n = .running q
    · obtain ⟨q, hq⟩ := hn
      rw [history_succ_of_running hq, List.mem_append, Option.mem_toList] at h
      obtain h | h := h
      · exact earlier h
      · obtain ⟨hb, hh, m, hs⟩ := exists_done_of_mem_next? h
        exact ⟨n, q, m, Nat.lt_succ_self n, hq, hb.symm, hh, hs⟩
    · rw [history_succ_of_ended (not_exists.1 hn)] at h
      exact earlier h

theorem forward_add (x : Interpreter) (r : Run) (k n : ℕ) :
    x.forward r (k + n) = match x.forward r k with
      | .running s => x.forward s n
      | ended => ended := by
  induction n with
  | zero => cases x.forward r k <;> rfl
  | succ n ih =>
    rw [← Nat.add_assoc, forward, ih]
    cases h : x.forward r k <;> rfl

theorem history_add (h : x.forward r n = .running s) (k : ℕ) :
    x.history r (n + k) = x.history r n ++ x.history s k := by
  induction k with
  | zero => exact (List.append_nil _).symm
  | succ k ih =>
    have hf : x.forward r (n + k) = x.forward s k := by rw [forward_add, h]
    rw [← Nat.add_assoc, history, ih, hf, List.append_assoc]
    rfl

theorem history_isPrefix (x : Interpreter) (r : Run) {k n : ℕ} (h : k ≤ n) :
    x.history r k <+: x.history r n := by
  induction h with
  | refl => exact List.prefix_refl _
  | step _ ih => exact ih.trans (List.prefix_append _ _)

theorem exists_step_of_running (h : x.forward r n = .running s) {k : ℕ} (hk : k < n) :
    ∃ q e m, x.forward r k = .running q ∧ x.hasHalted q.machine = false ∧
      x.step q.machine = .done e m := by
  induction n generalizing s with
  | zero => exact absurd hk (Nat.not_lt_zero k)
  | succ n ih =>
    obtain ⟨q, hq, ht⟩ := exists_turn_of_forward_succ h
    by_cases hkn : k < n
    · exact ih hq hkn
    · obtain rfl : k = n := by omega
      obtain ⟨hh, e, m, hs, -⟩ := exists_done_of_turn ht
      exact ⟨q, e, m, hq, hh, hs⟩

theorem exists_running_of_le (h : x.forward r n = .running s) {k : ℕ} (hk : k ≤ n) :
    ∃ q, x.forward r k = .running q := by
  obtain hk | rfl := Nat.lt_or_eq_of_le hk
  · obtain ⟨q, -, -, hq, -⟩ := exists_step_of_running h hk
    exact ⟨q, hq⟩
  · exact ⟨s, h⟩

theorem forward_of_le_of_ended {k : ℕ} (hk : k ≤ n) (h : ∀ s, x.forward r k ≠ .running s) :
    x.forward r n = x.forward r k := by
  induction hk with
  | refl => rfl
  | step _ ih => rw [forward_succ_of_ended (ih ▸ h), ih]

theorem steps_of_running (h : x.forward r n = .running s) : s.tally.steps = r.tally.steps + n := by
  induction n generalizing s with
  | zero => rw [← Progress.running.inj h, Nat.add_zero]
  | succ n ih =>
    obtain ⟨q, hq, ht⟩ := exists_turn_of_forward_succ h
    obtain ⟨-, e, m, -, heq⟩ := exists_done_of_turn ht
    rw [heq, ← Nat.add_assoc, ← ih hq]
    rfl

end Interpreter

namespace Config

variable {c d : Config} {steps : ℕ}

theorem limitReached?_eq (h : d.maxSteps = c.maxSteps) (steps : ℕ) :
    d.limitReached? steps = c.limitReached? steps := by
  simp only [limitReached?, h]

theorem maxSteps_of_limitReached? {limit : ℕ} (h : c.limitReached? steps = some limit) :
    c.maxSteps = some limit := by
  unfold limitReached? at h
  split at h
  · rename_i hmax
    split at h <;> cases h
    exact hmax
  · cases h

end Config

def Program.interpreter (p : Program) (c : Config) : Interpreter where
  hasHalted := Machine.hasHalted p
  limitReached? := c.limitReached?
  step := Machine.step c p

theorem Program.turn_interpreter (p : Program) (c : Config) (r : Run) :
    (p.interpreter c).turn r = r.turn c p := rfl

@[simp] theorem Program.forward_interpreter (p : Program) (c : Config) (r : Run) (n : ℕ) :
    (p.interpreter c).forward r n = r.forward c p n := by
  induction n with
  | zero => rfl
  | succ n ih =>
    rw [Run.forward_add, Interpreter.forward, ih]
    cases r.forward c p n with
    | running s =>
      simp only [Run.forward, Program.turn_interpreter]
      cases s.turn c p <;> rfl
    | halted s => rfl
    | failed f s => rfl

def Run.history (c : Config) (p : Program) (n : ℕ) (r : Run) : List Executed :=
  (p.interpreter c).history r n

/-- What was executed is what the text has at the positions where it was executed. -/
theorem Run.instructionAt_of_mem_history {c : Config} {p : Program} {r : Run} {n : ℕ}
    {a : Executed} (h : a ∈ r.history c p n) :
    p.instructionAt a.before.ip = .ok a.effect.instruction := by
  obtain ⟨k, s, m, -, -, -, -, hs⟩ := Interpreter.exists_step_of_mem_history h
  exact (Machine.moves_of_step hs).instructionAt

def Run.count (k : Instruction) (es : List Executed) : ℕ :=
  es.countP fun a => a.effect.instruction = k

theorem Run.count_append (k : Instruction) (es : List Executed) (a : Executed) :
    count k (es ++ [a]) = count k es + if a.effect.instruction = k then 1 else 0 := by
  simp only [count, List.countP_append, List.countP_singleton, decide_eq_true_eq]

end TapeMachine
