import TapeMachine.Proofs.Addressing
import TapeMachine.Proofs.Consumption
import TapeMachine.Proofs.Lookups

namespace TapeMachine

namespace Tape

variable {t : Tape} {i : ℕ}

theorem cover_of_lt (h : i < t.size) : t.cover i = t := by
  rw [cover_eq_padded, padded_of_le h]

theorem lt_of_read_ne_zero (h : t.read i ≠ 0) : i < t.size := by
  by_contra hi
  apply h
  simp only [read, Array.getD_eq_getD_getElem?, Array.getElem?_eq_none (Nat.not_lt.1 hi),
    Option.getD_none]

end Tape

namespace Lookups

variable {t t' : Lookups} {p : Program} {o d : Int}

theorem resolve_cases (h : t.resolve p o = .ok (d, t')) :
    t' = t ∨ t.closer? o = none ∧ p.closerOf o = .ok d ∧ t' = t.record o d := by
  unfold resolve at h
  split at h
  · cases h
    exact .inl rfl
  · rename_i hn
    split at h
    · rename_i hc
      cases h
      exact .inr ⟨hn, hc, rfl⟩
    · cases h

theorem resolve_again (h : t.resolve p o = .ok (d, t')) : t'.resolve p o = .ok (d, t') := by
  obtain rfl | ⟨hn, hc, rfl⟩ := resolve_cases h
  · exact h
  · have hd : (t.record o d).closer? o = some d := Function.update_self ..
    simp only [resolve, hd]

end Lookups

theorem LoopTable.eq_of_resolve {t t' : LoopTable} {p : Program} {o d : Int}
    (h : t.resolve p o = .ok (d, t')) (ht : t'.lookups = t.lookups) : t' = t := by
  unfold resolve at h
  cases hn : t.closer? o with
  | some closer =>
    rw [hn] at h
    cases h
    rfl
  | none =>
    rw [hn] at h
    dsimp only at h
    split at h <;> cases h
    have ho := congrFun (congrArg Lookups.closer? ht) o
    simp only [lookups, closer?_record, ↓reduceIte, hn, reduceCtorEq] at ho

namespace Machine

variable {c : Config} {p : Program} {t t' : Lookups} {m m' : Machine} {f : Fault}

/-- What a failed instruction leaves: the machine and the maps as they were, apart from cells that a
read appended before it found no byte, and from the pair of an opener that found no cell. A second
attempt changes nothing more. -/
structure Residue (c : Config) (p : Program) (t : Lookups) (m : Machine) (f : Fault) (m' : Machine)
    (t' : Lookups) : Prop where
  ip : m'.ip = m.ip
  dp : m'.dp = m.dp
  port : m'.port = m.port
  tape : m'.tape = m.tape ∨ p.instructionAt m.ip = .ok .read ∧ f = .inputExhausted m.ip ∧
    c.bounds = .grow ∧ m.tape.size ≤ m.dp ∧ m'.tape = m.tape.padded (m.dp.toNat + 1)
  lookups : t' = t ∨ p.instructionAt m.ip = .ok .openLoop ∧ m.cell c = .error f ∧
    t.closer? m.ip = none ∧ ∃ d, p.closerOf m.ip = .ok d ∧ t' = t.record m.ip d
  again : m'.stepWith c p t' = (.failed f m', t')

theorem Residue.of_unchanged (h : m.stepWith c p t = (.failed f m, t)) : m.Residue c p t f m t where
  ip := rfl
  dp := rfl
  port := rfl
  tape := .inl rfl
  lookups := .inl rfl
  again := h

theorem stepWith_eq_step {k : Instruction} (hi : p.instructionAt m.ip = .ok k)
    (ho : k ≠ .openLoop) (hc : k ≠ .closeLoop) (t : Lookups) :
    m.stepWith c p t = (m.step c p, t) := by
  rw [step_eq_perform hi]
  unfold stepWith
  rw [hi]
  cases k with
  | openLoop => exact absurd rfl ho
  | closeLoop => exact absurd rfl hc
  | _ => rfl

theorem residue_of_exhausted {i : ℕ} (hi : p.instructionAt m.ip = .ok .read)
    (hc : m.cell c = .ok i) (hu : m.port.unread = []) (he : c.eof = .error) (t : Lookups) :
    m.Residue c p t (.inputExhausted m.ip) (m.covered i) t := by
  have exhausted {m : Machine} (hi : p.instructionAt m.ip = .ok .read) (hc : m.cell c = .ok i)
      (hu : m.port.unread = []) :
      m.stepWith c p t = (.failed (.inputExhausted m.ip) (m.covered i), t) := by
    rw [stepWith_eq_step hi (by decide) (by decide), step_read_of_nil hi hc hu, he]
  have hcell := cell_eq_ok.1 hc
  by_cases hlt : i < m.tape.size
  · have hm : m.covered i = m := by rw [covered, Tape.cover_of_lt hlt]
    rw [hm]
    apply Residue.of_unchanged
    rw [exhausted hi hc hu, hm]
  · -- the cell is appended by the first attempt and found by the second
    have hb : c.bounds = .grow := by
      by_contra hb
      exact hlt (BoundsPolicy.lt_of_cell hb hcell)
    have hdp : (i : Int) = m.dp := by
      simpa [BoundsPolicy.place, hb] using BoundsPolicy.natCast_of_cell hcell
    have hsize : (m.covered i).tape.size = max m.tape.size (i + 1) := Tape.size_cover ..
    have hcovered : (m.covered i).cell c = .ok i := by
      rw [cell_eq_ok, hsize]
      exact BoundsPolicy.cell_of_covered hcell
    have hstay : (m.covered i).covered i = m.covered i := by
      rw [covered, Tape.cover_of_lt (by omega)]
    refine ⟨rfl, rfl, rfl, .inr ⟨hi, rfl, hb, by omega, ?_⟩, .inl rfl, ?_⟩
    · rw [covered, Tape.cover_eq_padded, ← hdp, Int.toNat_natCast]
    · rw [exhausted (m := m.covered i) hi hcovered hu, hstay]
      rfl

theorem residue_of_other {k : Instruction} (hi : p.instructionAt m.ip = .ok k)
    (ho : k ≠ .openLoop) (hc : k ≠ .closeLoop) (h : m.stepWith c p t = (.failed f m', t')) :
    m.Residue c p t f m' t' := by
  have hstep := stepWith_eq_step (c := c) hi ho hc t
  obtain ⟨hs, rfl⟩ := Prod.mk.inj (hstep.symm.trans h)
  have other {k' : Instruction} (hi' : p.instructionAt m.ip = .ok k') : k = k' :=
    Except.ok.inj (hi.symm.trans hi')
  cases fails_of_step hs with
  | fetch hi' => cases hi.symm.trans hi'
  | missed k' hi' ho' hcell hm =>
    subst hm
    exact .of_unchanged h
  | exhausted i hi' hcell hu he hf hm =>
    rw [hf, hm]
    exact residue_of_exhausted hi' hcell ((Port.take?_eq_none_iff _).1 hu) he t
  | unmatched hi' => exact absurd (other hi') ho
  | opened closer hi' => exact absurd (other hi') ho
  | unpaired i hi' => exact absurd (other hi') hc

/-- An opener may have entered its pair, which it does not look for a second time. -/
theorem residue_of_opener (hi : p.instructionAt m.ip = .ok .openLoop)
    (h : m.stepWith c p t = (.failed f m', t')) : m.Residue c p t f m' t' := by
  have hstep := h
  simp only [stepWith, hi] at hstep
  cases hr : t.resolve p m.ip with
  | error g =>
    rw [hr] at hstep
    obtain ⟨hs, rfl⟩ := Prod.mk.inj hstep
    cases hs
    exact .of_unchanged h
  | ok found =>
    obtain ⟨d, u⟩ := found
    rw [hr] at hstep
    obtain ⟨hs, rfl⟩ := Prod.mk.inj hstep
    obtain ⟨hcell, rfl⟩ | ⟨i, -, hact⟩ := atCell_eq_failed.1 hs
    · refine ⟨rfl, rfl, rfl, .inl rfl, ?_, ?_⟩
      · obtain hu | ⟨hn, hd, hu⟩ := Lookups.resolve_cases hr
        · exact .inl hu
        · exact .inr ⟨hi, hcell, hn, d, hd, hu⟩
      · simp only [stepWith, hi, Lookups.resolve_again hr]
        rw [hs]
    · dsimp only at hact
      split at hact <;> cases hact

/-- A closer that looks for its opener has a cell that is not zero, so none was appended. -/
theorem residue_of_closer (hi : p.instructionAt m.ip = .ok .closeLoop)
    (h : m.stepWith c p t = (.failed f m', t')) : m.Residue c p t f m' t' := by
  have hstep := h
  simp only [stepWith, hi] at hstep
  obtain ⟨hs, rfl⟩ := Prod.mk.inj hstep
  obtain ⟨-, rfl⟩ | ⟨i, -, hact⟩ := atCell_eq_failed.1 hs
  · exact .of_unchanged h
  · simp only [Tape.read_cover] at hact
    split at hact <;> rename_i hz
    · cases hact
    · have hm : { m with tape := m.tape.cover i } = m := by
        rw [Tape.cover_of_lt (Tape.lt_of_read_ne_zero hz)]
      split at hact <;> cases hact
      rw [hm] at h ⊢
      exact .of_unchanged h

theorem residue_of_stepWith (h : m.stepWith c p t = (.failed f m', t')) :
    m.Residue c p t f m' t' := by
  cases hi : p.instructionAt m.ip with
  | error g =>
    have hstep := h
    simp only [stepWith, hi] at hstep
    obtain ⟨hs, rfl⟩ := Prod.mk.inj hstep
    cases hs
    exact .of_unchanged h
  | ok k =>
    cases k with
    | openLoop => exact residue_of_opener hi h
    | closeLoop => exact residue_of_closer hi h
    | _ => exact residue_of_other hi (by decide) (by decide) h

theorem residue_of_step (h : m.step c p = .failed f m') :
    (withoutTable.machine m).Residue c p m.loops.lookups f (withoutTable.machine m')
      m'.loops.lookups := by
  apply residue_of_stepWith
  rw [stepWith_lookups, h]
  rfl

theorem step_again (h : m.step c p = .failed f m') : m'.step c p = .failed f m' := by
  have hagain := (residue_of_step h).again
  rw [stepWith_lookups] at hagain
  obtain ⟨hs, hl⟩ := Prod.mk.inj hagain
  cases hs' : m'.step c p with
  | done e m'' =>
    rw [hs'] at hs
    cases hs
  | failed g m'' =>
    rw [hs'] at hs hl
    obtain ⟨rfl, hm⟩ := Step.failed.inj hs
    have hloops : m''.loops = m'.loops := by
      obtain hloops | ⟨-, d, hr⟩ := (fails_of_step hs').loops
      · exact hloops
      · exact LoopTable.eq_of_resolve hr hl
    have hm'' : m'' = m' := calc
      m'' = { withoutTable.machine m'' with loops := m''.loops } := rfl
      _ = { withoutTable.machine m' with loops := m'.loops } := by rw [hm, hloops]
    rw [hm'']
    rfl

/-- Whatever the maps hold, a failure changes no more than `Residue` says
and is met again in the same way; and so it is for a machine with a table. -/
theorem residue_of_failed (c : Config) (p : Program) (m m' : Machine) (f : Fault) :
    (∀ t t' : Lookups, m.stepWith c p t = (.failed f m', t') → m.Residue c p t f m' t') ∧
    (m.step c p = .failed f m' →
      (withoutTable.machine m).Residue c p m.loops.lookups f (withoutTable.machine m')
        m'.loops.lookups ∧
      m'.step c p = .failed f m') :=
  ⟨fun _ _ => residue_of_stepWith, fun h => ⟨residue_of_step h, step_again h⟩⟩

theorem residue_of_failed_opener :
    let c : Config := {}
    let p := Program.ofList ['[', ']']
    let m : Machine := { dp := -1, tape := .blank 1 }
    let t : Lookups := ⟨fun _ => none, fun _ => some 7⟩
    let f := Fault.cellOutOfRange (-1) 1 0
    let growing : Config := { bounds := .grow }
    let q := Program.ofList [',']
    let s : Machine := { dp := 2, tape := .blank 1 }
    let s' : Machine := { dp := 2, tape := .blank 3 }
    (m.stepWith c p t = (.failed f m, t.record 0 1) ∧ m.Residue c p t f m (t.record 0 1)) ∧
    (s.step growing q = .failed (.inputExhausted 0) s' ∧
      s'.step growing q = .failed (.inputExhausted 0) s') := by
  intro c p m t f growing q s s'
  have hm : m.stepWith c p t = (.failed f m, t.record 0 1) := rfl
  have hs : s.step growing q = .failed (.inputExhausted 0) s' := by decide
  exact ⟨⟨hm, (residue_of_failed c p m m f).1 t _ hm⟩,
    hs, ((residue_of_failed growing q s s' _).2 hs).2⟩

end Machine

end TapeMachine
