import TapeMachine.Proofs.Movement

namespace TapeMachine

namespace Program

variable {p : Program} {i : Int} {f : Fault}

theorem noSymbol_cases (i : Int) :
    noSymbol i = .positionOutOfRange ∨ noSymbol i = .positionTooLarge := by
  unfold noSymbol
  split
  · exact .inl rfl
  · exact .inr rfl

theorem fault_of_symbolAt (h : p.symbolAt i = .error f) : f = noSymbol i := by
  simp only [symbolAt] at h
  generalize (if i < 0 then i + (p.size : Int) else i) = k at h
  split at h
  · exact (Except.error.inj h).symm
  · split at h
    · cases h
    · exact (Except.error.inj h).symm

theorem fault_of_symbolsFrom (h : p.symbolsFrom i = .error f) : f = noSymbol i := by
  unfold symbolsFrom at h
  split at h
  · cases h
  · split at h
    · cases h
    · exact (Except.error.inj h).symm

/-- An instruction is missing because there is no symbol or because the symbol is foreign. -/
theorem fault_of_instructionAt (h : p.instructionAt i = .error f) :
    f = noSymbol i ∨ ∃ s, f = .foreignSymbol s i := by
  unfold instructionAt at h
  split at h <;> rename_i hs
  · cases h
    exact .inl (fault_of_symbolAt hs)
  · split at h <;> cases h
    exact .inr ⟨_, rfl⟩

theorem fault_of_closerOf (h : p.closerOf i = .error f) :
    f = .unmatchedOpener i ∨ f = noSymbol (i + 1) := by
  unfold closerOf at h
  split at h
  · cases h
    exact .inl rfl
  · split at h <;> rename_i hs
    · cases h
      exact .inr (fault_of_symbolsFrom hs)
    · split at h <;> cases h
      exact .inl rfl

end Program

namespace LoopTable

variable {p : Program} {t : LoopTable} {i : Int} {f : Fault}

theorem fault_of_resolve (h : t.resolve p i = .error f) :
    f = .unmatchedOpener i ∨ f = Program.noSymbol (i + 1) := by
  unfold resolve at h
  split at h
  · cases h
  · split at h <;> rename_i hc <;> cases h
    exact Program.fault_of_closerOf hc

theorem fault_of_openerOf (h : t.openerOf i = .error f) : f = .unpairedCloser i := by
  unfold openerOf at h
  split at h <;> cases h
  rfl

end LoopTable

namespace Machine

variable {c : Config} {p : Program} {m m' : Machine} {f : Fault}

theorem fault_of_cell (h : m.cell c = .error f) :
    f = .cellOutOfRange m.dp m.tape.size m.ip ∨ f = .noCells := by
  unfold cell at h
  split at h <;> cases h
  · exact .inl rfl
  · exact .inr rfl

/-- The step limit is a matter of the run; no instruction fails at it. -/
theorem ne_stepLimit_of_step (h : m.step c p = .failed f m') (limit : Nat) :
    f ≠ .stepLimit limit := by
  have noSymbol (i : Int) : Program.noSymbol i ≠ .stepLimit limit := by
    obtain h | h := Program.noSymbol_cases i <;> rw [h] <;> exact nofun
  cases fails_of_step h with
  | fetch hi =>
    obtain rfl | ⟨s, rfl⟩ := Program.fault_of_instructionAt hi
    · exact noSymbol _
    · exact nofun
  | missed i hi ho hc =>
    obtain rfl | rfl := fault_of_cell hc <;> exact nofun
  | exhausted i hi hc ht he hf =>
    rw [hf]
    exact nofun
  | unmatched hi hr =>
    obtain rfl | rfl := LoopTable.fault_of_resolve hr
    · exact nofun
    · exact noSymbol _
  | opened closer hi hr hc =>
    obtain rfl | rfl := fault_of_cell hc <;> exact nofun
  | unpaired i hi hc hne ho =>
    rw [LoopTable.fault_of_openerOf ho]
    exact nofun

end Machine

end TapeMachine
