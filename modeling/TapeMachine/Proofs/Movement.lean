import TapeMachine.Machine
import Mathlib.Data.List.Basic

namespace TapeMachine.Machine

def value? (c : Config) (m : Machine) : Option UInt8 :=
  match m.cell c with
  | .ok i => some (m.tape.read i)
  | .error _ => none

/-- What an executed instruction does to the instruction pointer and to the loop table. -/
inductive Moves (c : Config) (p : Program) (m : Machine) (e : Effect) (m' : Machine) : Prop
  | onward (hi : p.instructionAt m.ip = .ok e.instruction) (ho : e.instruction ≠ .openLoop)
    (hc : e.instruction ≠ .closeLoop) (hj : e.jumpTarget = none) (hl : m'.loops = m.loops)
    (hip : m'.ip = m.ip + 1)
  /-- The body of a loop is entered on a cell that is not zero, -/
  | enter (closer : Int) (v : UInt8) (hi : p.instructionAt m.ip = .ok .openLoop)
    (he : e.instruction = .openLoop) (hr : m.loops.resolve p m.ip = .ok (closer, m'.loops))
    (hv : m.value? c = some v) (hne : v ≠ 0) (hj : e.jumpTarget = none) (hip : m'.ip = m.ip + 1)
  /-- and passed over on zero. -/
  | skip (closer : Int) (hi : p.instructionAt m.ip = .ok .openLoop)
    (he : e.instruction = .openLoop) (hr : m.loops.resolve p m.ip = .ok (closer, m'.loops))
    (hv : m.value? c = some 0) (hj : e.jumpTarget = some closer) (hip : m'.ip = closer + 1)
  | leave (hi : p.instructionAt m.ip = .ok .closeLoop) (he : e.instruction = .closeLoop)
    (hv : m.value? c = some 0) (hj : e.jumpTarget = none) (hl : m'.loops = m.loops)
    (hip : m'.ip = m.ip + 1)
  | again (opener : Int) (v : UInt8) (hi : p.instructionAt m.ip = .ok .closeLoop)
    (he : e.instruction = .closeLoop) (ho : m.loops.openerOf m.ip = .ok opener)
    (hv : m.value? c = some v) (hne : v ≠ 0) (hj : e.jumpTarget = some opener)
    (hl : m'.loops = m.loops) (hip : m'.ip = opener + 1)

/-- What a failed instruction leaves behind: the machine as it was, apart from cells that were
appended and a loop that was looked up before the fault. -/
inductive Fails (c : Config) (p : Program) (m : Machine) (f : Fault) (m' : Machine) : Prop
  | fetch (hi : p.instructionAt m.ip = .error f) (hm : m' = m)
  | missed (i : Instruction) (hi : p.instructionAt m.ip = .ok i) (ho : i ≠ .openLoop)
    (hc : m.cell c = .error f) (hm : m' = m)
  | exhausted (i : ℕ) (hi : p.instructionAt m.ip = .ok .read) (hc : m.cell c = .ok i)
    (ht : m.port.take? = none) (he : c.eof = .error) (hf : f = .inputExhausted m.ip)
    (hm : m' = { m with tape := m.tape.cover i })
  | unmatched (hi : p.instructionAt m.ip = .ok .openLoop) (hr : m.loops.resolve p m.ip = .error f)
    (hm : m' = m)
  /-- The loop is known before the cell turns out to be missing. -/
  | opened (closer : Int) (hi : p.instructionAt m.ip = .ok .openLoop)
    (hr : m.loops.resolve p m.ip = .ok (closer, m'.loops)) (hc : m.cell c = .error f)
    (hm : m' = { m with loops := m'.loops })
  | unpaired (i : ℕ) (hi : p.instructionAt m.ip = .ok .closeLoop) (hc : m.cell c = .ok i)
    (hne : m.tape.read i ≠ 0) (ho : m.loops.openerOf m.ip = .error f)
    (hm : m' = { m with tape := m.tape.cover i })

variable {c : Config} {p : Program} {m m' : Machine} {e : Effect} {f : Fault}

theorem atCell_eq_done {act : ℕ → Machine → Step} :
    m.atCell c act = .done e m' ↔
      ∃ i, m.cell c = .ok i ∧ act i { m with tape := m.tape.cover i } = .done e m' := by
  unfold atCell
  cases m.cell c <;> simp

theorem atCell_eq_failed {act : ℕ → Machine → Step} :
    m.atCell c act = .failed f m' ↔ (m.cell c = .error f ∧ m' = m) ∨
      ∃ i, m.cell c = .ok i ∧ act i { m with tape := m.tape.cover i } = .failed f m' := by
  unfold atCell
  cases m.cell c <;> simp [eq_comm]

theorem value?_of_cell {i : ℕ} (h : m.cell c = .ok i) : m.value? c = some (m.tape.read i) := by
  simp only [value?, h]

theorem step_eq_perform {i : Instruction} (h : p.instructionAt m.ip = .ok i) :
    m.step c p = m.perform c p i := by
  simp only [step, h]

theorem step_of_error (h : p.instructionAt m.ip = .error f) : m.step c p = .failed f m := by
  simp only [step, h]

theorem exists_perform_of_step_done (h : m.step c p = .done e m') :
    ∃ i, p.instructionAt m.ip = .ok i ∧ m.perform c p i = .done e m' := by
  cases hi : p.instructionAt m.ip with
  | error f =>
    rw [step_of_error hi] at h
    cases h
  | ok i => exact ⟨i, rfl, step_eq_perform hi ▸ h⟩

theorem moves_of_step (hs : m.step c p = .done e m') : m.Moves c p e m' := by
  obtain ⟨i, hi, h⟩ := exists_perform_of_step_done hs
  clear hs
  cases i with
  | moveRight | moveLeft =>
    cases h
    exact .onward hi nofun nofun rfl rfl rfl
  | increment | decrement | write =>
    simp only [perform, atCell_eq_done] at h
    obtain ⟨i, -, h⟩ := h
    cases h
    exact .onward hi nofun nofun rfl rfl rfl
  | read =>
    simp only [perform, atCell_eq_done] at h
    obtain ⟨i, -, h⟩ := h
    split at h
    · cases h
      exact .onward hi nofun nofun rfl rfl rfl
    · split at h <;> cases h <;> exact .onward hi nofun nofun rfl rfl rfl
  | openLoop =>
    simp only [perform] at h
    split at h
    · cases h
    · rename_i closer loops hr
      obtain ⟨i, hc, h⟩ := atCell_eq_done.1 h
      have hv : m.value? c = some (m.tape.read i) := value?_of_cell hc
      simp only [Tape.read_cover] at h
      split at h <;> rename_i hz <;> cases h
      · exact .skip closer hi rfl hr (hz ▸ hv) rfl rfl
      · exact .enter closer _ hi rfl hr hv hz rfl rfl
  | closeLoop =>
    simp only [perform, atCell_eq_done] at h
    obtain ⟨i, hc, h⟩ := h
    have hv := value?_of_cell hc
    simp only [Tape.read_cover] at h
    split at h <;> rename_i hz
    · cases h
      exact .leave hi rfl (hz ▸ hv) rfl rfl rfl
    · split at h <;> rename_i ho <;> cases h
      exact .again _ _ hi rfl ho hv hz rfl rfl rfl

theorem Moves.instructionAt (h : m.Moves c p e m') : p.instructionAt m.ip = .ok e.instruction := by
  cases h with
  | onward hi => exact hi
  | enter closer v hi he | skip closer hi he => rw [he, hi]
  | leave hi he => rw [he, hi]
  | again opener v hi he => rw [he, hi]

theorem symbolAt_of_step (hs : m.step c p = .done e m') :
    p.symbolAt m.ip = .ok e.instruction.symbol :=
  Program.symbolAt_of_instructionAt (moves_of_step hs).instructionAt

theorem fails_of_step (hs : m.step c p = .failed f m') : m.Fails c p f m' := by
  cases hi : p.instructionAt m.ip with
  | error g =>
    rw [step_of_error hi] at hs
    cases hs
    exact .fetch hi rfl
  | ok k =>
    rw [step_eq_perform hi] at hs
    cases k with
    | moveRight | moveLeft => cases hs
    | increment | decrement | write =>
      simp only [perform] at hs
      obtain ⟨hc, hm⟩ | ⟨i, -, h⟩ := atCell_eq_failed.1 hs
      · exact .missed _ hi nofun hc hm
      · cases h
    | read =>
      simp only [perform] at hs
      obtain ⟨hc, hm⟩ | ⟨i, hc, h⟩ := atCell_eq_failed.1 hs
      · exact .missed _ hi nofun hc hm
      · split at h <;> rename_i ht
        · cases h
        · split at h <;> rename_i he <;> cases h
          exact .exhausted i hi hc ht he rfl rfl
    | openLoop =>
      simp only [perform] at hs
      split at hs <;> rename_i hr
      · cases hs
        exact .unmatched hi hr rfl
      · obtain ⟨hc, rfl⟩ | ⟨i, -, h⟩ := atCell_eq_failed.1 hs
        · exact .opened _ hi hr hc rfl
        · dsimp only at h
          split at h <;> cases h
    | closeLoop =>
      simp only [perform] at hs
      obtain ⟨hc, hm⟩ | ⟨i, hc, h⟩ := atCell_eq_failed.1 hs
      · exact .missed _ hi nofun hc hm
      · simp only [Tape.read_cover] at h
        split at h <;> rename_i hz
        · cases h
        · split at h <;> rename_i ho <;> cases h
          exact .unpaired i hi hc hz ho rfl

theorem Fails.eq_with (h : m.Fails c p f m') :
    m' = { m with tape := m'.tape, loops := m'.loops } := by
  cases h with
  | fetch hi hm | unmatched hi hr hm => rw [hm]
  | missed i hi ho hc hm => rw [hm]
  | exhausted i hi hc ht he hf hm => rw [hm]
  | opened closer hi hr hc hm => rw [hm]
  | unpaired i hi hc hne ho hm => rw [hm]

theorem Fails.ip_eq (h : m.Fails c p f m') : m'.ip = m.ip := by rw [h.eq_with]

theorem Fails.port_eq (h : m.Fails c p f m') : m'.port = m.port := by rw [h.eq_with]

/-- The table is changed by an opener only, which looks up its closer before its cell. -/
theorem Fails.loops (h : m.Fails c p f m') :
    m'.loops = m.loops ∨ p.instructionAt m.ip = .ok .openLoop ∧
      ∃ closer, m.loops.resolve p m.ip = .ok (closer, m'.loops) := by
  cases h with
  | fetch hi hm | unmatched hi hr hm => exact .inl (hm ▸ rfl)
  | missed i hi ho hc hm => exact .inl (hm ▸ rfl)
  | exhausted i hi hc ht he hf hm => exact .inl (hm ▸ rfl)
  | opened closer hi hr hc hm => exact .inr ⟨hi, closer, hr⟩
  | unpaired i hi hc hne ho hm => exact .inl (hm ▸ rfl)

end TapeMachine.Machine
