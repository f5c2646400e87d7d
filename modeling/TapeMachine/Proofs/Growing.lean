import TapeMachine.Proofs.Lockstep
import TapeMachine.Proofs.Movement
import TapeMachine.Proofs.Padding

namespace TapeMachine

def padding (n : ℕ) : Reading where
  machine m := { m with tape := m.tape.padded n }
  fault := Fault.padded n

/-- A tape set up by `d` with `n` cells is as good as a growing one that leads to `m`. -/
def Config.Fits (d : Config) (n : ℕ) (m : Machine) : Prop :=
  d.bounds = .grow ∨ d.bounds = .error ∧ m.tape.size ≤ n

namespace Machine

variable {c d : Config} {p : Program} {m m' : Machine} {f : Fault} {n : ℕ}

theorem cell_of_nonneg (hb : c.bounds = .grow) (h : 0 ≤ m.dp) : m.cell c = .ok m.dp.toNat := by
  rw [cell, hb, BoundsPolicy.cell_grow, if_pos h]

theorem cell_of_neg (hb : c.bounds = .grow ∨ c.bounds = .error) (h : m.dp < 0) :
    m.cell c = .error (.cellOutOfRange m.dp m.tape.size m.ip) := by
  have hcell : c.bounds.cell m.tape.size m.dp = .error .outOfRange := by
    obtain hb | hb := hb
    · rw [hb, BoundsPolicy.cell_grow, if_neg (Int.not_le.2 h)]
    · rw [hb, BoundsPolicy.cell_error_of_lt (by omega), BoundsPolicy.cell_grow,
        if_neg (Int.not_le.2 h)]
  rw [cell, hcell]

theorem cell_of_lt (hb : c.bounds = .error) (h : 0 ≤ m.dp) (hs : m.dp < m.tape.size) :
    m.cell c = .ok m.dp.toNat := by
  rw [cell, hb, BoundsPolicy.cell_error_of_lt hs, BoundsPolicy.cell_grow, if_pos h]

/-- What is done at a cell is done on the longer tape as well, unless that tape is too short for
the cell and must not grow. -/
theorem atCell_padded (hb : c.bounds = .grow) {act act' : ℕ → Machine → Step}
    (h : ∀ i tape, i < tape.size → (act i { m with tape }).machine.tape.size = tape.size ∧
      act' i { m with tape := tape.padded n } = (padding n).step (act i { m with tape }))
    (hd : d.Fits n (m.atCell c act).machine) :
    atCell { m with tape := m.tape.padded n } d act' = (padding n).step (m.atCell c act) := by
  by_cases hp : 0 ≤ m.dp
  · have hi : m.dp.toNat < (m.tape.cover m.dp.toNat).size := by
      rw [Tape.size_cover]
      omega
    obtain ⟨hsize, heq⟩ := h m.dp.toNat (m.tape.cover m.dp.toNat) hi
    have hcell : cell { m with tape := m.tape.padded n } d = .ok m.dp.toNat := by
      obtain hg | ⟨he, hn⟩ := hd
      · exact cell_of_nonneg hg hp
      · apply cell_of_lt (m := { m with tape := m.tape.padded n }) he hp
        -- the growing tape did not outgrow `n`, so the cell is one of the first `n`
        simp only [atCell, cell_of_nonneg hb hp, hsize, Tape.size_cover] at hn
        simp only [Tape.size_padded]
        omega
    simp only [atCell, cell_of_nonneg hb hp, hcell, Tape.padded_cover]
    exact heq
  · have hneg : m.dp < 0 := Int.not_le.1 hp
    have hd' : d.bounds = .grow ∨ d.bounds = .error := hd.imp_right And.left
    have hcell := cell_of_neg (m := { m with tape := m.tape.padded n }) hd' hneg
    simp only [atCell, cell_of_neg (.inl hb) hneg, hcell, Tape.size_padded]
    rfl

theorem perform_padded (hb : c.bounds = .grow) (he : d.eof = c.eof) {k : Instruction}
    (hd : d.Fits n (m.perform c p k).machine) :
    perform d p { m with tape := m.tape.padded n } k = (padding n).step (m.perform c p k) := by
  have stored {i : ℕ} {tape : Tape} (hi : i < tape.size) (m : Machine) (e : Effect) (v : UInt8) :
      Step.done e (store { m with tape := tape.padded n } i v).advance =
        (padding n).step (.done e (store { m with tape } i v).advance) := by
    simp only [store, Tape.padded_store hi]
    rfl
  cases k with
  | moveRight | moveLeft => rfl
  | increment | decrement =>
    simp only [perform] at hd ⊢
    refine atCell_padded hb (fun i tape hi => ?_) hd
    rw [Tape.read_padded]
    exact ⟨Tape.size_store .., stored hi m _ _⟩
  | write =>
    simp only [perform] at hd ⊢
    refine atCell_padded hb (fun i tape hi => ?_) hd
    rw [Tape.read_padded]
    exact ⟨rfl, rfl⟩
  | read =>
    simp only [perform] at hd ⊢
    refine atCell_padded hb (fun i tape hi => ?_) hd
    dsimp only
    rw [he]
    cases m.port.take? with
    | some t => exact ⟨Tape.size_store .., stored hi { m with port := t.2 } _ _⟩
    | none =>
      cases c.eof with
      | error => exact ⟨rfl, rfl⟩
      | zero => exact ⟨Tape.size_store .., stored hi m _ _⟩
      | unchanged => exact ⟨rfl, rfl⟩
  | openLoop =>
    simp only [perform] at hd ⊢
    cases hr : m.loops.resolve p m.ip with
    | error f =>
      have hf := LoopTable.isCellOutOfRange_of_resolve hr
      exact congrArg (Step.failed · _) (Fault.padded_of_isCellOutOfRange hf n).symm
    | ok t =>
      rw [hr] at hd
      refine atCell_padded (m := { m with loops := t.2 }) hb (fun i tape hi => ?_) hd
      rw [Tape.read_padded]
      split <;> exact ⟨rfl, rfl⟩
  | closeLoop =>
    simp only [perform] at hd ⊢
    refine atCell_padded hb (fun i tape hi => ?_) hd
    rw [Tape.read_padded]
    split
    · exact ⟨rfl, rfl⟩
    · cases ho : m.loops.openerOf m.ip with
      | error f =>
        have hf := LoopTable.isCellOutOfRange_of_openerOf ho
        exact ⟨rfl, congrArg (Step.failed · _) (Fault.padded_of_isCellOutOfRange hf n).symm⟩
      | ok opener => exact ⟨rfl, rfl⟩

theorem step_padded (hb : c.bounds = .grow) (he : d.eof = c.eof)
    (hd : d.Fits n (m.step c p).machine) :
    step d p { m with tape := m.tape.padded n } = (padding n).step (m.step c p) := by
  cases hi : p.instructionAt m.ip with
  | error f =>
    have hf := Program.isCellOutOfRange_of_instructionAt hi
    have hi' : p.instructionAt { m with tape := m.tape.padded n }.ip = .error f := hi
    rw [step_of_error hi, step_of_error hi']
    exact congrArg (Step.failed · _) (Fault.padded_of_isCellOutOfRange hf n).symm
  | ok k =>
    have hi' : p.instructionAt { m with tape := m.tape.padded n }.ip = .ok k := hi
    rw [step_eq_perform hi] at hd ⊢
    rw [step_eq_perform hi']
    exact perform_padded hb he hd

theorem neg_of_cell_eq_error (hb : c.bounds = .grow) (h : m.cell c = .error f) :
    m.dp < 0 ∧ f = .cellOutOfRange m.dp m.tape.size m.ip := by
  by_cases hp : 0 ≤ m.dp
  · cases (cell_of_nonneg hb hp).symm.trans h
  · have hneg : m.dp < 0 := Int.not_le.1 hp
    rw [cell_of_neg (.inl hb) hneg] at h
    exact ⟨hneg, (Except.error.inj h).symm⟩

theorem neg_of_step_failed (hb : c.bounds = .grow) (h : m.step c p = .failed f m')
    (hf : f.isCellOutOfRange = true) :
    m'.dp < 0 ∧ f = .cellOutOfRange m'.dp m'.tape.size m'.ip := by
  have absurd' (hg : f.isCellOutOfRange = false) : False := by
    rw [hg] at hf
    cases hf
  -- of the ways to fail, two are for want of a cell
  cases fails_of_step h with
  | fetch hi => exact (absurd' (Program.isCellOutOfRange_of_instructionAt hi)).elim
  | missed i hi ho hc hm =>
    rw [hm]
    exact neg_of_cell_eq_error hb hc
  | exhausted i hi hc ht he hg => exact (absurd' (hg ▸ rfl)).elim
  | unmatched hi hr => exact (absurd' (LoopTable.isCellOutOfRange_of_resolve hr)).elim
  | opened closer hi hr hc hm =>
    rw [hm]
    exact neg_of_cell_eq_error hb hc
  | unpaired i hi hc hne ho => exact (absurd' (LoopTable.isCellOutOfRange_of_openerOf ho)).elim

end Machine

variable {c d : Config} {p : Program} {n : ℕ}

theorem Run.machine_turn {r : Run} (hh : r.machine.hasHalted p = false)
    (hl : c.limitReached? r.tally.steps = none) :
    (r.turn c p).run.machine = (r.machine.step c p).machine := by
  rw [← Program.turn_interpreter]
  cases hs : r.machine.step c p with
  | done e m => rw [Interpreter.turn_of_done hh hl hs]; rfl
  | failed f m => rw [Interpreter.turn_of_failed hh hl hs]; rfl

theorem padding_kept (hb : c.bounds = .grow) (he : d.eof = c.eof) (hl : d.maxSteps = c.maxSteps)
    (p : Program) (n : ℕ) : (padding n).Kept (fun r => d.Fits n (r.turn c p).run.machine)
      (p.interpreter c) (p.interpreter d) where
  hasHalted _ _ := rfl
  limit t := Config.limitReached?_eq hl t.steps
  record _ _ := rfl
  stepLimit _ := rfl
  step r hr hh hlim := by
    rw [Run.machine_turn hh hlim] at hr
    exact Machine.step_padded hb he hr

/-- A run on a growing tape is, filled up, the run on a longer tape, if that tape grows as well or
is never outgrown. -/
theorem forward_padding (hb : c.bounds = .grow) (he : d.eof = c.eof) (hl : d.maxSteps = c.maxSteps)
    (hs : c.memorySize ≤ d.memorySize) (input : List UInt8)
    (hd : ∀ k ≤ n, d.Fits d.memorySize ((Run.start c input).forward c p k).run.machine) :
    (Run.start d input).forward d p n =
      (padding d.memorySize).progress ((Run.start c input).forward c p n) ∧
    (Run.start d input).history d p n =
      ((Run.start c input).history c p n).map (padding d.memorySize).executed := by
  have hstart : (padding d.memorySize).run (.start c input) = .start d input := by
    simp only [Reading.run, padding, Run.start, Machine.start, Tape.padded_blank,
      Nat.max_eq_right hs, id]
  have hk := (padding_kept hb he hl p d.memorySize).lockstep (r := .start c input) n
    fun k hkn q hq => by
      rw [← p.turn_interpreter, ← Interpreter.forward_succ_of_running hq, p.forward_interpreter]
      exact hd (k + 1) hkn
  rwa [hstart, p.forward_interpreter, p.forward_interpreter] at hk

theorem neg_of_forward_failed (hb : c.bounds = .grow) {input : List UInt8} {f : Fault} {r : Run}
    (h : (Run.start c input).forward c p n = .failed f r) (hf : f.isCellOutOfRange = true) :
    r.machine.dp < 0 ∧ f = .cellOutOfRange r.machine.dp r.machine.tape.size r.machine.ip := by
  rw [← p.forward_interpreter] at h
  obtain ⟨k, q, -, -, -, ⟨limit, rfl, -⟩ | ⟨-, hs⟩⟩ := Interpreter.exists_running_of_failed h
  · cases hf
  · exact Machine.neg_of_step_failed hb hs hf

def Config.withTape (c : Config) (bounds : BoundsPolicy) (size : ℕ) (h : 0 < size) : Config :=
  { c with memorySize := size, bounds, memorySize_pos := h }

/-- A growing tape has no end: filled up to one length, runs that start with tapes of any two
lengths are the same, and cells are missed only below the first. As long as the tape has not
outgrown a length, the run is that on a fixed tape of this length. -/
theorem forward_grow (c : Config) (p : Program) (input : List UInt8) (n a b : ℕ) (ha : 0 < a)
    (hb : 0 < b) :
    let run (d : Config) (k : ℕ) := (Run.start d input).forward d p k
    let history (d : Config) := (Run.start d input).history d p n
    ((padding (max a b)).progress (run (c.withTape .grow a ha) n) =
        (padding (max a b)).progress (run (c.withTape .grow b hb) n) ∧
      (history (c.withTape .grow a ha)).map (padding (max a b)).executed =
        (history (c.withTape .grow b hb)).map (padding (max a b)).executed) ∧
    (∀ pointer size i r,
      run (c.withTape .grow a ha) n = .failed (.cellOutOfRange pointer size i) r →
        pointer < 0 ∧ r.machine.dp = pointer) ∧
    ∀ size hs, (∀ k ≤ n, (run (c.withTape .grow a ha) k).run.machine.tape.size ≤ size) →
      run (c.withTape .error size hs) n =
        (padding size).progress (run (c.withTape .grow a ha) n) ∧
      history (c.withTape .error size hs) =
        (history (c.withTape .grow a ha)).map (padding size).executed := by
  intro run history
  have hmax : 0 < max a b := by omega
  -- both are read as the run that starts with the longer of the two tapes
  have longer (size : ℕ) (h : 0 < size) (hle : size ≤ max a b) :=
    forward_padding (c := c.withTape .grow size h) (d := c.withTape .grow (max a b) hmax) (p := p)
      (n := n) rfl rfl rfl hle input fun _ _ => .inl rfl
  obtain ⟨hpa, hha⟩ := longer a ha (Nat.le_max_left a b)
  obtain ⟨hpb, hhb⟩ := longer b hb (Nat.le_max_right a b)
  refine ⟨⟨hpa.symm.trans hpb, hha.symm.trans hhb⟩, ?_, ?_⟩
  · intro pointer size i r h
    obtain ⟨hneg, heq⟩ := neg_of_forward_failed rfl h rfl
    cases heq
    exact ⟨hneg, rfl⟩
  · intro size hs h
    -- the first tape is not longer than `size` either
    have hle : a ≤ size := by
      have h₀ := h 0 (Nat.zero_le n)
      have hsize : (run (c.withTape .grow a ha) 0).run.machine.tape.size = a := Tape.size_blank a
      rwa [hsize] at h₀
    exact forward_padding (c := c.withTape .grow a ha) (d := c.withTape .error size hs) rfl rfl rfl
      hle input fun k hk => .inr ⟨rfl, h k hk⟩

theorem grow_below_first_cell :
    let c : Config := { memorySize := 1 }
    let p := Program.ofList ['>', '+', '<', '<', '+']
    let run (d : Config) (k : ℕ) := (Run.start d []).forward d p k
    let grow := c.withTape .grow 1 (by decide)
    let r := (run grow 5).run
    (∀ k ≤ 5, (run grow k).run.machine.tape.size ≤ 2) ∧
    (run grow 5 = .failed (.cellOutOfRange (-1) 2 4) r ∧ r.machine.dp = -1) ∧
    (padding 2).progress (run grow 5) =
      (padding 2).progress (run (c.withTape .grow 2 (by decide)) 5) ∧
    run (c.withTape .error 2 (by decide)) 5 = (padding 2).progress (run grow 5) := by
  intro c p run grow r
  have hr : run grow 5 = .failed (.cellOutOfRange (-1) 2 4) r := by decide
  have hsize : ∀ k ≤ 5, (run grow k).run.machine.tape.size ≤ 2 := by decide
  obtain ⟨hsame, hneg, hfixed⟩ := forward_grow c p [] 5 1 2 (by decide) (by decide)
  exact ⟨hsize, ⟨hr, (hneg _ _ _ r hr).2⟩, hsame.1, (hfixed 2 (by decide) hsize).1⟩

end TapeMachine
