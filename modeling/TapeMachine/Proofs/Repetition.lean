import TapeMachine.Proofs.Cacheless
import TapeMachine.Proofs.Truncation

namespace TapeMachine

/-- What of a run decides how it goes on while no limit is set: not its table, nor what it has
written and counted. -/
def outlook : Reading where
  machine m := { m with loops := {}, port := { unread := m.port.unread } }
  tally _ := {}

namespace Machine

variable {c : Config} {p : Program} {m m' : Machine}

theorem atCell_outlook {act : ℕ → Machine → Step}
    (h : ∀ i tape, outlook.step (act i (outlook.machine { m with tape })) =
      outlook.step (act i { m with tape })) :
    outlook.step ((outlook.machine m).atCell c act) = outlook.step (m.atCell c act) := by
  have hcell : (outlook.machine m).cell c = m.cell c := rfl
  unfold atCell
  rw [hcell]
  cases m.cell c with
  | error f => rfl
  | ok i => exact h i _

theorem perform_outlook {i : Instruction} (ho : i ≠ .openLoop) (hc : i ≠ .closeLoop) :
    outlook.step ((outlook.machine m).perform c p i) = outlook.step (m.perform c p i) := by
  cases i with
  | moveRight | moveLeft => rfl
  | increment | decrement | write =>
    simp only [perform]
    exact atCell_outlook fun _ _ => rfl
  | read =>
    simp only [perform]
    refine atCell_outlook fun i tape => ?_
    dsimp only [Port.take?, outlook]
    cases hu : m.port.unread with
    | nil => cases c.eof <;> simp only [Reading.step, advance, store, hu]
    | cons b rest => rfl
  | openLoop => exact absurd rfl ho
  | closeLoop => exact absurd rfl hc

theorem cachelessStep_outlook :
    outlook.step (cachelessStep c p (outlook.machine m)) = outlook.step (cachelessStep c p m) := by
  have hip : (outlook.machine m).ip = m.ip := rfl
  unfold cachelessStep
  rw [hip]
  cases p.instructionAt m.ip with
  | error f => rfl
  | ok k =>
    cases k with
    | openLoop =>
      dsimp only
      cases p.loops.closer? m.ip with
      | none => rfl
      | some closer =>
        refine atCell_outlook fun i tape => ?_
        dsimp only [outlook]
        split <;> rfl
    | closeLoop =>
      refine atCell_outlook fun i tape => ?_
      dsimp only [outlook]
      split
      · rfl
      · cases p.loops.opener? m.ip <;> rfl
    | _ => exact perform_outlook (by decide) (by decide)

theorem Tracked.step_outlook (h : m.Tracked p) (h' : m'.Tracked p)
    (heq : outlook.machine m = outlook.machine m') :
    outlook.step (m.step c p) = outlook.step (m'.step c p) := by
  -- each does what a machine without a table does, which sees nothing but the outlook
  have through {m : Machine} (h : m.Tracked p) :
      outlook.step (m.step c p) = outlook.step (cachelessStep c p (outlook.machine m)) := by
    have hstep := congrArg outlook.step (cachelessStep_withoutTable (c := c) h)
    have hforget (s : Step) : outlook.step (withoutTable.step s) = outlook.step s := by
      cases s <;> rfl
    rw [hforget] at hstep
    rw [← hstep, ← cachelessStep_outlook (m := { m with loops := {} })]
    rfl
  rw [through h, through h', heq]

theorem Tracked.exists_done_of_outlook (h : m.Tracked p) (h' : m'.Tracked p)
    (heq : outlook.machine m = outlook.machine m') {e : Effect} {n : Machine}
    (hs : m.step c p = .done e n) :
    ∃ n', m'.step c p = .done e n' ∧ outlook.machine n = outlook.machine n' := by
  have hstep := h.step_outlook (c := c) h' heq
  rw [hs] at hstep
  cases hs' : m'.step c p with
  | done e' n' =>
    rw [hs'] at hstep
    obtain ⟨rfl, hn⟩ := Step.done.inj hstep
    exact ⟨n', rfl, hn⟩
  | failed f n' =>
    rw [hs'] at hstep
    cases hstep

end Machine

namespace Run

variable {c : Config} {p : Program} {input : List UInt8} {r r' s : Run} {i d n : ℕ}

theorem exists_turn_of_outlook (hc : c.maxSteps = none) (hr : r.machine.Tracked p)
    (hr' : r'.machine.Tracked p) (heq : outlook.machine r.machine = outlook.machine r'.machine)
    (h : r.turn c p = .running s) :
    ∃ s', r'.turn c p = .running s' ∧ outlook.machine s.machine = outlook.machine s'.machine := by
  rw [← p.turn_interpreter] at h
  obtain ⟨hh, e, m, hs, rfl⟩ := Interpreter.exists_done_of_turn h
  obtain ⟨m', hs', hm⟩ := hr.exists_done_of_outlook hr' heq hs
  have hip : r.machine.ip = r'.machine.ip := (Machine.mk.inj heq).1
  have hh' : r'.machine.hasHalted p = false := by
    rw [Machine.hasHalted, ← hip]
    exact hh
  have hl : c.limitReached? r'.tally.steps = none := by simp only [Config.limitReached?, hc]
  exact ⟨_, Interpreter.turn_of_done (x := p.interpreter c) hh' hl hs', hm⟩

theorem tracked_of_turn (hr : r.machine.Tracked p) (h : r.turn c p = .running s) :
    s.machine.Tracked p :=
  hr.forward (c := c) (n := 1) (by simp only [forward, h])

theorem exists_forward_of_outlook (hc : c.maxSteps = none) (hr : r.machine.Tracked p)
    (hr' : r'.machine.Tracked p) (heq : outlook.machine r.machine = outlook.machine r'.machine)
    (h : r.forward c p n = .running s) :
    ∃ s', r'.forward c p n = .running s' ∧
      outlook.machine s.machine = outlook.machine s'.machine := by
  induction n generalizing r r' with
  | zero =>
    cases h
    exact ⟨r', rfl, heq⟩
  | succ n ih =>
    simp only [forward] at h ⊢
    cases ht : r.turn c p with
    | running q =>
      obtain ⟨q', ht', hq⟩ := exists_turn_of_outlook hc hr hr' heq ht
      rw [ht] at h
      rw [ht']
      exact ih (tracked_of_turn hr ht) (tracked_of_turn hr' ht') hq h
    | halted q =>
      rw [ht] at h
      cases h
    | failed f q =>
      rw [ht] at h
      cases h

/-- A run that comes back to its outlook comes back to it again and again. -/
theorem exists_running_of_comeback (hc : c.maxSteps = none) (hr : r.machine.Tracked p)
    (hs : r.forward c p d = .running s)
    (heq : outlook.machine s.machine = outlook.machine r.machine) (k : ℕ) :
    ∃ q, r.forward c p (k * d) = .running q ∧
      outlook.machine q.machine = outlook.machine r.machine := by
  induction k with
  | zero => exact ⟨r, by rw [Nat.zero_mul, forward], rfl⟩
  | succ k ih =>
    obtain ⟨q, hq, hqr⟩ := ih
    obtain ⟨q', hq', hsq⟩ := exists_forward_of_outlook hc hr (hr.forward hq) hqr.symm hs
    refine ⟨q', ?_, hsq.symm.trans heq⟩
    rw [Nat.succ_mul, forward_add, hq]
    exact hq'

theorem exists_running_of_recurrence (hc : c.maxSteps = none) (hd : 0 < d)
    (hr : (Run.start c input).forward c p i = .running r) (hs : r.forward c p d = .running s)
    (heq : outlook.machine s.machine = outlook.machine r.machine) (n : ℕ) :
    ∃ q, (Run.start c input).forward c p n = .running q := by
  obtain ⟨q, hq, -⟩ := exists_running_of_comeback hc (tracked_of_running hr) hs heq n
  have hfar : (Run.start c input).forward c p (i + n * d) = .running q := by
    rw [forward_add, hr]
    exact hq
  have hle : n ≤ i + n * d := Nat.le_add_left_of_le (Nat.le_mul_of_pos_right n hd)
  rw [← p.forward_interpreter] at hfar
  simpa only [p.forward_interpreter] using Interpreter.exists_running_of_le hfar hle

/-- Places of one run at which as many bytes have been read are of one outlook if instruction
pointer, data pointer and tape are the same. -/
theorem outlook_eq {j : ℕ} (hr : (Run.start c input).forward c p i = .running r)
    (hs : (Run.start c input).forward c p j = .running s) (hip : s.machine.ip = r.machine.ip)
    (hdp : s.machine.dp = r.machine.dp) (htape : s.machine.tape = r.machine.tape)
    (hconsumed : s.machine.port.consumed = r.machine.port.consumed) :
    outlook.machine s.machine = outlook.machine r.machine := by
  have hunread := unread_eq c p input
  have hi := hunread i
  have hj := hunread j
  rw [hr] at hi
  rw [hs] at hj
  have hport : s.machine.port.unread = r.machine.port.unread :=
    hj.trans ((congrArg input.drop hconsumed).trans hi.symm)
  simp only [outlook, hip, hdp, htape, hport]

theorem exists_stepLimit_of_endless (hc : c.maxSteps = none)
    (h : ∀ k, ∃ q, (Run.start c input).forward c p k = .running q) (n : ℕ) :
    let cut := c.withLimit (some n)
    ∃ q, (Run.start cut input).forward cut p (n + 1) = .failed (.stepLimit n) q := by
  intro cut
  have hfree : c.withLimit none = c := by rw [Config.withLimit, ← hc]
  have hends := (Recorder.ofRun.truncates c p (s := Run.start c input) rfl n).endless
  simp only [Recorder.forward_ofRun, hfree] at hends
  obtain ⟨q, -, hq⟩ := hends fun k => (h k).imp fun _ hk => by rw [hk, Progress.outcome]
  refine ⟨q, ?_⟩
  change ((Run.start cut input).forward cut p (n + 1)).outcome = .failed (.stepLimit n) q at hq
  cases hcut : (Run.start cut input).forward cut p (n + 1) <;> rw [hcut] at hq <;> cases hq
  rfl

/-- A run that comes twice to the same instruction with the same data pointer, the same tape and as
many bytes read never ends, whatever it has learned about loops between the two visits: it neither
halts nor fails, and every step limit cuts it off. -/
theorem repeated_never_ends (c : Config) (p : Program) (input : List UInt8) (i j : ℕ) (r s : Run)
    (hc : c.maxSteps = none) (hij : i < j)
    (hr : (Run.start c input).forward c p i = .running r)
    (hs : (Run.start c input).forward c p j = .running s)
    (hip : s.machine.ip = r.machine.ip) (hdp : s.machine.dp = r.machine.dp)
    (htape : s.machine.tape = r.machine.tape)
    (hconsumed : s.machine.port.consumed = r.machine.port.consumed) :
    (∀ n, ∃ q, (Run.start c input).forward c p n = .running q) ∧
    ∀ n, let cut := c.withLimit (some n)
      ∃ q, (Run.start cut input).forward cut p (n + 1) = .failed (.stepLimit n) q := by
  have heq := outlook_eq hr hs hip hdp htape hconsumed
  obtain ⟨d, rfl⟩ := Nat.exists_eq_add_of_le (Nat.le_of_lt hij)
  rw [forward_add, hr] at hs
  have hrun := exists_running_of_recurrence hc (by omega) hr hs heq
  exact ⟨hrun, exists_stepLimit_of_endless hc hrun⟩

theorem repeated_with_more_loops :
    let c : Config := { memorySize := 2 }
    let p := Program.ofText "+[.>[]<]"
    let r := ((Run.start c []).forward c p 2).run
    let s := ((Run.start c []).forward c p 7).run
    (Run.start c []).forward c p 2 = .running r ∧ (Run.start c []).forward c p 7 = .running s ∧
      r.machine.loops ≠ s.machine.loops ∧ r.machine.port.written ≠ s.machine.port.written ∧
      (∀ n, ∃ q, (Run.start c []).forward c p n = .running q) ∧
      ∀ n, let cut := c.withLimit (some n)
        ∃ q, (Run.start cut []).forward cut p (n + 1) = .failed (.stepLimit n) q := by
  intro c p r s
  have hr : (Run.start c []).forward c p 2 = .running r := by decide
  have hs : (Run.start c []).forward c p 7 = .running s := by decide
  obtain ⟨hrun, hcut⟩ := repeated_never_ends c p [] 2 7 r s rfl (by decide) hr hs (by decide)
    (by decide) (by decide) (by decide)
  exact ⟨hr, hs, by decide, by decide, hrun, hcut⟩

end Run

end TapeMachine
