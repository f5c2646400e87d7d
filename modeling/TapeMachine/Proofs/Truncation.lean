import TapeMachine.Proofs.Consumption
import TapeMachine.Proofs.Faults
import TapeMachine.Proofs.Tracing

namespace TapeMachine

/-- How a run stands, whatever is kept of it. -/
inductive Outcome (σ : Type) where
  | running (state : σ)
  | halted (state : σ)
  | failed (fault : Fault) (state : σ)

def Outcome.state {σ : Type} : Outcome σ → σ
  | running s => s
  | halted s => s
  | failed _ s => s

def Progress.outcome : Progress → Outcome Run
  | running r => .running r
  | halted r => .halted r
  | failed f r => .failed f r

def Tracing.outcome : Tracing → Outcome Trace
  | running t => .running t
  | halted t => .halted t
  | failed f t => .failed f t

def Config.withLimit (c : Config) (limit : Option ℕ) : Config := { c with maxSteps := limit }

/-- What becomes of a run when it may take `n` steps only: `free k` and `cut k` are how it stands
after at most `k` turns without the limit and with it. -/
structure Truncates {σ : Type} (view : σ → Run) (n : ℕ) (free cut : ℕ → Outcome σ) : Prop where
  /-- A run that halts or fails soon enough does so under the limit as well, -/
  halted : ∀ k s, free k = .halted s → (view s).tally.steps ≤ n → cut k = .halted s
  failed : ∀ k f s, free k = .failed f s → (view s).tally.steps < n → cut k = .failed f s
  /-- and any other is cut off where it is after `n` steps. -/
  halted_beyond : ∀ k s, free k = .halted s → n < (view s).tally.steps →
    ∃ t, free n = .running t ∧ cut (n + 1) = .failed (.stepLimit n) t
  failed_beyond : ∀ k f s, free k = .failed f s → n ≤ (view s).tally.steps →
    ∃ t, free n = .running t ∧ cut (n + 1) = .failed (.stepLimit n) t
  endless : (∀ k, ∃ s, free k = .running s) →
    ∃ t, free n = .running t ∧ cut (n + 1) = .failed (.stepLimit n) t
  /-- It is cut off nowhere else, and what it has read and written there is what the run without the
  limit goes on from. -/
  limit : ∀ k l s, cut k = .failed (.stepLimit l) s → l = n ∧ (view s).tally.steps = n ∧
    free n = .running s ∧
    ∀ j ≥ n, (view s).machine.port.Precedes (view (free j).state).machine.port

/-- How a run is kept in states that may hold more than the run itself. -/
structure Recorder (σ : Type) where
  view : σ → Run
  record : σ → Effect → Machine → σ
  leave : σ → Machine → σ
  view_record : ∀ s e m, view (record s e m) = ⟨m, (view s).tally.record e⟩
  view_leave : ∀ s m, view (leave s m) = ⟨m, (view s).tally⟩

namespace Recorder

variable {σ : Type}

def turn (x : Recorder σ) (c : Config) (p : Program) (s : σ) : Outcome σ :=
  if (x.view s).machine.hasHalted p then .halted s
  else match c.limitReached? (x.view s).tally.steps with
    | some limit => .failed (.stepLimit limit) s
    | none =>
      match (x.view s).machine.step c p with
      | .done e m => .running (x.record s e m)
      | .failed f m => .failed f (x.leave s m)

def forward (x : Recorder σ) (c : Config) (p : Program) : ℕ → σ → Outcome σ
  | 0, s => .running s
  | k + 1, s =>
    match x.turn c p s with
    | .running s => x.forward c p k s
    | ended => ended

def ofRun : Recorder Run where
  view r := r
  record r e m := ⟨m, r.tally.record e⟩
  leave r m := ⟨m, r.tally⟩
  view_record _ _ _ := rfl
  view_leave _ _ := rfl

def ofTrace : Recorder Trace where
  view := Trace.run
  record t e m := t.record e.instruction.symbol e m
  leave t m := { t with run := { t.run with machine := m } }
  view_record _ _ _ := rfl
  view_leave _ _ := rfl

theorem turn_ofRun (c : Config) (p : Program) (r : Run) :
    ofRun.turn c p r = (r.turn c p).outcome := by
  obtain ⟨m, tally⟩ := r
  cases hh : m.hasHalted p with
  | true => simp only [turn, ofRun, Run.turn, hh, if_true, Progress.outcome]
  | false =>
    simp only [turn, ofRun, Run.turn, hh, Bool.false_eq_true, if_false]
    cases c.limitReached? tally.steps with
    | some limit => rfl
    | none => cases m.step c p <;> rfl

theorem turn_ofTrace (c : Config) (p : Program) (t : Trace) :
    ofTrace.turn c p t = (t.turn c p).outcome := by
  rw [Trace.turn_eq]
  cases hh : t.run.machine.hasHalted p with
  | true => simp only [turn, ofTrace, hh, if_true, Tracing.outcome]
  | false =>
    simp only [turn, ofTrace, hh, Bool.false_eq_true, if_false]
    cases c.limitReached? t.run.tally.steps with
    | some limit => rfl
    | none => cases t.run.machine.step c p <;> rfl

theorem forward_ofRun (c : Config) (p : Program) (k : ℕ) (r : Run) :
    ofRun.forward c p k r = (r.forward c p k).outcome := by
  induction k generalizing r with
  | zero => rfl
  | succ k ih =>
    rw [forward, Run.forward, turn_ofRun]
    cases r.turn c p with
    | running s => exact ih s
    | halted s => rfl
    | failed f s => rfl

theorem forward_ofTrace (c : Config) (p : Program) (k : ℕ) (t : Trace) :
    ofTrace.forward c p k t = (t.forward c p k).outcome := by
  induction k generalizing t with
  | zero => rfl
  | succ k ih =>
    rw [forward, Trace.forward, turn_ofTrace]
    cases t.turn c p with
    | running s => exact ih s
    | halted s => rfl
    | failed f s => rfl

variable {x : Recorder σ} {c : Config} {p : Program} {s t : σ} {f : Fault} {k n : ℕ}

theorem forward_of_running (h : x.turn c p s = .running t) (k : ℕ) :
    x.forward c p (k + 1) s = x.forward c p k t := by
  simp only [forward, h]

theorem forward_of_halted (h : x.turn c p s = .halted t) (k : ℕ) :
    x.forward c p (k + 1) s = .halted t := by
  simp only [forward, h]

theorem forward_of_failed (h : x.turn c p s = .failed f t) (k : ℕ) :
    x.forward c p (k + 1) s = .failed f t := by
  simp only [forward, h]

theorem forward_add (x : Recorder σ) (c : Config) (p : Program) (j k : ℕ) (s : σ) :
    x.forward c p (j + k) s = match x.forward c p j s with
      | .running t => x.forward c p k t
      | ended => ended := by
  induction j generalizing s with
  | zero => rw [Nat.zero_add, forward]
  | succ j ih =>
    rw [Nat.succ_add]
    cases hs : x.turn c p s with
    | running t => rw [forward_of_running hs, forward_of_running hs, ih]
    | halted t => rw [forward_of_halted hs, forward_of_halted hs]
    | failed f t => rw [forward_of_failed hs, forward_of_failed hs]

theorem turn_of_hasHalted (h : (x.view s).machine.hasHalted p = true) :
    x.turn c p s = .halted s := by
  simp only [turn, h, if_true]

theorem forward_of_hasHalted (h : (x.view s).machine.hasHalted p = true) (k : ℕ) :
    x.forward c p k s = .running s ∨ x.forward c p k s = .halted s := by
  cases k with
  | zero => exact .inl rfl
  | succ k => exact .inr (forward_of_halted (turn_of_hasHalted h) k)

theorem turn_none (h : (x.view s).machine.hasHalted p = false) :
    x.turn (c.withLimit none) p s = match (x.view s).machine.step c p with
      | .done e m => .running (x.record s e m)
      | .failed f m => .failed f (x.leave s m) := by
  simp only [turn, h, Bool.false_eq_true, if_false]
  rfl

theorem turn_some_of_lt (h : (x.view s).tally.steps < n) :
    x.turn (c.withLimit (some n)) p s = x.turn (c.withLimit none) p s := by
  simp only [turn, Config.limitReached?, Config.withLimit, if_neg (Nat.not_le.2 h)]
  rfl

theorem turn_some_of_le (h : (x.view s).machine.hasHalted p = false)
    (hn : n ≤ (x.view s).tally.steps) :
    x.turn (c.withLimit (some n)) p s = .failed (.stepLimit n) s := by
  simp only [turn, h, Bool.false_eq_true, if_false, Config.limitReached?, Config.withLimit,
    if_pos hn]

theorem turn_cases (x : Recorder σ) (c : Config) (p : Program) (s : σ) :
    ((x.view s).machine.hasHalted p = true ∧ x.turn (c.withLimit none) p s = .halted s) ∨
    ((x.view s).machine.hasHalted p = false ∧ ∃ t, x.turn (c.withLimit none) p s = .running t ∧
      (x.view t).tally.steps = (x.view s).tally.steps + 1 ∧
      (x.view s).machine.port.Precedes (x.view t).machine.port) ∨
    ((x.view s).machine.hasHalted p = false ∧ ∃ f t, x.turn (c.withLimit none) p s = .failed f t ∧
      (∀ limit, f ≠ .stepLimit limit) ∧ (x.view t).tally.steps = (x.view s).tally.steps ∧
      (x.view s).machine.port.Precedes (x.view t).machine.port) := by
  cases hh : (x.view s).machine.hasHalted p with
  | true => exact .inl ⟨rfl, turn_of_hasHalted hh⟩
  | false =>
    rw [turn_none hh]
    cases hs : (x.view s).machine.step c p with
    | done e m =>
      refine .inr (.inl ⟨rfl, _, rfl, ?_⟩)
      rw [x.view_record]
      exact ⟨rfl, (Machine.acts_of_step hs).precedes⟩
    | failed f m =>
      refine .inr (.inr ⟨rfl, f, _, rfl, Machine.ne_stepLimit_of_step hs, ?_⟩)
      rw [x.view_leave, (Machine.fails_of_step hs).port_eq]
      exact ⟨rfl, .refl _⟩

theorem forward_grows (x : Recorder σ) (c : Config) (p : Program) (k : ℕ) (s : σ) :
    (x.view s).tally.steps ≤ (x.view (x.forward (c.withLimit none) p k s).state).tally.steps ∧
    (x.view s).machine.port.Precedes
      (x.view (x.forward (c.withLimit none) p k s).state).machine.port := by
  induction k generalizing s with
  | zero => exact ⟨Nat.le_refl _, .refl _⟩
  | succ k ih =>
    obtain ⟨-, hs⟩ | ⟨-, t, hs, hsteps, hport⟩ | ⟨-, f, t, hs, -, hsteps, hport⟩ :=
      x.turn_cases c p s
    · rw [forward_of_halted hs]
      exact ⟨Nat.le_refl _, .refl _⟩
    · rw [forward_of_running hs]
      obtain ⟨hle, hpre⟩ := ih t
      exact ⟨by omega, hport.trans hpre⟩
    · rw [forward_of_failed hs]
      exact ⟨Nat.le_of_eq hsteps.symm, hport⟩

theorem steps_of_running (h : x.forward (c.withLimit none) p k s = .running t) :
    (x.view t).tally.steps = (x.view s).tally.steps + k := by
  induction k generalizing s with
  | zero =>
    cases h
    rfl
  | succ k ih =>
    obtain ⟨-, hs⟩ | ⟨-, u, hs, hsteps, -⟩ | ⟨-, f, u, hs, -⟩ := x.turn_cases c p s
    · cases (forward_of_halted hs k).symm.trans h
    · rw [forward_of_running hs] at h
      have := ih h
      omega
    · cases (forward_of_failed hs k).symm.trans h

theorem exists_running_of_le {j : ℕ} (hj : (x.view s).tally.steps + j ≤
      (x.view (x.forward (c.withLimit none) p k s).state).tally.steps) :
    ∃ t i, x.forward (c.withLimit none) p j s = .running t ∧
      x.forward (c.withLimit none) p k s = x.forward (c.withLimit none) p i t := by
  induction j generalizing k s with
  | zero => exact ⟨s, k, rfl, rfl⟩
  | succ j ih =>
    -- it has not ended in its first turn
    have more {t : σ} (h : (x.view s).tally.steps + (j + 1) ≤ (x.view t).tally.steps)
        (ht : (x.view t).tally.steps = (x.view s).tally.steps) : False := by omega
    cases k with
    | zero => exact (more hj rfl).elim
    | succ k =>
      obtain ⟨-, hs⟩ | ⟨-, u, hs, hsteps, -⟩ | ⟨-, f, u, hs, -, hsteps, -⟩ := x.turn_cases c p s
      · rw [forward_of_halted hs] at hj
        exact (more hj rfl).elim
      · rw [forward_of_running hs] at hj ⊢
        rw [forward_of_running hs]
        exact ih (by omega)
      · rw [forward_of_failed hs] at hj
        exact (more hj hsteps).elim

theorem forward_some_of_le (hk : (x.view s).tally.steps + k ≤ n) :
    x.forward (c.withLimit (some n)) p k s = x.forward (c.withLimit none) p k s := by
  induction k generalizing s with
  | zero => rfl
  | succ k ih =>
    have hlt := turn_some_of_lt (x := x) (c := c) (p := p) (s := s) (n := n) (by omega)
    obtain ⟨-, hs⟩ | ⟨-, t, hs, hsteps, -⟩ | ⟨-, f, t, hs, -⟩ := x.turn_cases c p s
    · rw [forward_of_halted hs, forward_of_halted (hlt.trans hs)]
    · rw [forward_of_running hs, forward_of_running (hlt.trans hs), ih (by omega)]
    · rw [forward_of_failed hs, forward_of_failed (hlt.trans hs)]

theorem forward_some_of_lt
    (hn : (x.view (x.forward (c.withLimit none) p k s).state).tally.steps < n) :
    x.forward (c.withLimit (some n)) p k s = x.forward (c.withLimit none) p k s := by
  induction k generalizing s with
  | zero => rfl
  | succ k ih =>
    have hle := (x.forward_grows c p (k + 1) s).1
    have hlt := turn_some_of_lt (x := x) (c := c) (p := p) (Nat.lt_of_le_of_lt hle hn)
    obtain ⟨-, hs⟩ | ⟨-, t, hs, -⟩ | ⟨-, f, t, hs, -⟩ := x.turn_cases c p s
    · rw [forward_of_halted hs, forward_of_halted (hlt.trans hs)]
    · rw [forward_of_running hs] at hn ⊢
      rw [forward_of_running (hlt.trans hs), ih hn]
    · rw [forward_of_failed hs, forward_of_failed (hlt.trans hs)]

theorem forward_some_of_reached (hs : (x.view s).tally.steps = 0)
    (h : x.forward (c.withLimit none) p n s = .running t)
    (hh : (x.view t).machine.hasHalted p = false) :
    x.forward (c.withLimit (some n)) p (n + 1) s = .failed (.stepLimit n) t := by
  have hle : (x.view s).tally.steps + n ≤ n := by omega
  have ht : n ≤ (x.view t).tally.steps := by
    rw [steps_of_running h]
    omega
  rw [forward_add, forward_some_of_le hle, h]
  exact forward_of_failed (turn_some_of_le hh ht) 0

theorem running_of_stepLimit {l : ℕ} (hs : (x.view s).tally.steps ≤ n)
    (h : x.forward (c.withLimit (some n)) p k s = .failed (.stepLimit l) t) :
    l = n ∧ (x.view t).tally.steps = n ∧
      x.forward (c.withLimit none) p (n - (x.view s).tally.steps) s = .running t := by
  induction k generalizing s with
  | zero => cases h
  | succ k ih =>
    obtain hlt | heq := Nat.lt_or_eq_of_le hs
    · have hturn := turn_some_of_lt (x := x) (c := c) (p := p) hlt
      obtain ⟨-, hu⟩ | ⟨-, u, hu, hsteps, -⟩ | ⟨-, g, u, hu, hg, -⟩ := x.turn_cases c p s
      · cases (forward_of_halted (hturn.trans hu) k).symm.trans h
      · rw [forward_of_running (hturn.trans hu)] at h
        obtain ⟨hl, ht, hfree⟩ := ih (by omega) h
        refine ⟨hl, ht, ?_⟩
        rw [show n - (x.view s).tally.steps = n - (x.view u).tally.steps + 1 by omega,
          forward_of_running hu, hfree]
      · cases (forward_of_failed (hturn.trans hu) k).symm.trans h
        exact absurd rfl (hg l)
    · cases hh : (x.view s).machine.hasHalted p with
      | true => cases (forward_of_halted (turn_of_hasHalted hh) k).symm.trans h
      | false =>
        rw [forward_of_failed (turn_some_of_le hh (Nat.le_of_eq heq.symm))] at h
        cases h
        exact ⟨rfl, heq.symm ▸ rfl, by rw [heq, Nat.sub_self]; rfl⟩

/-- A run that halts with its last step at the limit still halts, since its end is noticed first. -/
theorem forward_some_of_halted (h : x.forward (c.withLimit none) p k s = .halted t)
    (hn : (x.view t).tally.steps ≤ n) : x.forward (c.withLimit (some n)) p k s = .halted t := by
  induction k generalizing s with
  | zero => cases h
  | succ k ih =>
    obtain ⟨hh, hs⟩ | ⟨-, u, hs, hsteps, -⟩ | ⟨-, f, u, hs, -⟩ := x.turn_cases c p s
    · rw [forward_of_halted hs] at h
      rw [forward_of_halted (turn_of_hasHalted hh), h]
    · rw [forward_of_running hs] at h
      have hle := (x.forward_grows c p k u).1
      rw [h] at hle
      have hlt : (x.view s).tally.steps < n := by
        have : (x.view u).tally.steps ≤ (x.view t).tally.steps := hle
        omega
      rw [forward_of_running ((turn_some_of_lt hlt).trans hs), ih h]
    · cases (forward_of_failed hs k).symm.trans h

theorem exists_cut (hs : (x.view s).tally.steps = 0)
    (hend : ∀ t, x.forward (c.withLimit none) p k s ≠ .running t)
    (hn : n ≤ (x.view (x.forward (c.withLimit none) p k s).state).tally.steps)
    (hhalted : ∀ t, x.forward (c.withLimit none) p k s = .halted t → n < (x.view t).tally.steps) :
    ∃ t, x.forward (c.withLimit none) p n s = .running t ∧
      x.forward (c.withLimit (some n)) p (n + 1) s = .failed (.stepLimit n) t := by
  obtain ⟨t, i, ht, hi⟩ :=
    exists_running_of_le (x := x) (c := c) (p := p) (s := s) (k := k) (j := n) (by omega)
  refine ⟨t, ht, forward_some_of_reached hs ht (Bool.eq_false_iff.2 fun hh => ?_)⟩
  -- otherwise the run has its last step behind it
  obtain hr | hr := forward_of_hasHalted (c := c.withLimit none) hh i
  · exact hend t (hi.trans hr)
  · have hlt := hhalted t (hi.trans hr)
    have hsteps := steps_of_running ht
    omega

theorem truncates (x : Recorder σ) (c : Config) (p : Program) (hs : (x.view s).tally.steps = 0)
    (n : ℕ) : Truncates x.view n (fun k => x.forward (c.withLimit none) p k s)
      (fun k => x.forward (c.withLimit (some n)) p k s) where
  halted _ _ h hn := forward_some_of_halted h hn
  failed k f t h hn := by
    refine (forward_some_of_lt ?_).trans h
    rw [show x.forward (c.withLimit none) p k s = _ from h]
    exact hn
  halted_beyond k t h hn := by
    have h : x.forward (c.withLimit none) p k s = .halted t := h
    refine exists_cut (k := k) hs ?_ ?_ ?_ <;> rw [h]
    · exact fun _ hu => nomatch hu
    · exact Nat.le_of_lt hn
    · intro u hu
      cases hu
      exact hn
  failed_beyond k f t h hn := by
    have h : x.forward (c.withLimit none) p k s = .failed f t := h
    refine exists_cut (k := k) hs ?_ ?_ ?_ <;> rw [h]
    · exact fun _ hu => nomatch hu
    · exact hn
    · exact fun _ hu => nomatch hu
  endless h := by
    obtain ⟨t, ht⟩ := h n
    obtain ⟨u, hu⟩ := h (n + 1)
    refine ⟨t, ht, forward_some_of_reached hs ht (Bool.eq_false_iff.2 fun hh => ?_)⟩
    have hend : x.forward (c.withLimit none) p (n + 1) s = .halted t := by
      rw [forward_add, show x.forward (c.withLimit none) p n s = _ from ht]
      exact forward_of_halted (turn_of_hasHalted hh) 0
    cases hend.symm.trans hu
  limit k l t h := by
    obtain ⟨hl, ht, hfree⟩ := running_of_stepLimit (by omega) h
    rw [hs, Nat.sub_zero] at hfree
    refine ⟨hl, ht, hfree, fun j hj => ?_⟩
    obtain ⟨d, rfl⟩ := Nat.exists_eq_add_of_le hj
    rw [forward_add, hfree]
    exact (x.forward_grows c p d t).2

end Recorder

/-- A step limit changes nothing but where a run is cut off, whether its steps are kept or not. -/
theorem forward_truncates (c : Config) (p : Program) (input : List UInt8) (n : ℕ) :
    let free := c.withLimit none
    let cut := c.withLimit (some n)
    Truncates (fun r => r) n (fun k => ((Run.start free input).forward free p k).outcome)
        (fun k => ((Run.start cut input).forward cut p k).outcome) ∧
      Truncates Trace.run n (fun k => ((Trace.start free input).forward free p k).outcome)
        (fun k => ((Trace.start cut input).forward cut p k).outcome) := by
  intro free cut
  constructor
  · simp only [← Recorder.forward_ofRun]
    exact Recorder.ofRun.truncates c p (s := Run.start free input) rfl n
  · simp only [← Recorder.forward_ofTrace]
    exact Recorder.ofTrace.truncates c p (s := Trace.start free input) rfl n

-- a limit of as many steps as the run has is no limit, not even for an empty program
example :
    let run (limit : ℕ) (text : List Char) :=
      let c : Config := { memorySize := 1, maxSteps := some limit }
      (Run.start c []).forward c (.ofList text) 3
    run 0 [] = .halted (run 0 []).run ∧ run 2 ['+', '+'] = .halted (run 2 ['+', '+']).run ∧
      run 1 ['+', '+'] = .failed (.stepLimit 1) (run 1 ['+', '+']).run := by decide

end TapeMachine
