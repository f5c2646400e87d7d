import TapeMachine.Proofs.Addressing
import TapeMachine.Proofs.Recording
import TapeMachine.Proofs.Replay

namespace TapeMachine

namespace Program

variable {p : Program} {i : Int} {s : Char} {f : Fault}

theorem mem_toList_of_symbolAt (h : p.symbolAt i = .ok s) : s ∈ p.toList := by
  simp only [symbolAt] at h
  generalize (if i < 0 then i + (p.size : Int) else i) = k at h
  split at h
  · cases h
  · split at h <;> rename_i hs <;> cases h
    exact List.mem_of_getElem? (Array.getElem?_toList.trans hs)

theorem foreign_of_instructionAt (hi : 0 ≤ i) (hlt : i < p.size)
    (h : p.instructionAt i = .error f) :
    ∃ s, f = .foreignSymbol s i ∧ p.symbolAt i = .ok s ∧ isForeign s = true := by
  obtain ⟨s, hs⟩ := exists_symbolAt hi hlt
  simp only [instructionAt, hs] at h
  split at h <;> rename_i hk <;> cases h
  exact ⟨s, rfl, hs, by rw [isForeign, hk]; rfl⟩

theorem isForeign_of_symbolAt_ofSource {source : String}
    (h : (ofSource source).symbolAt i = .ok s) : isForeign s = false :=
  not_isForeign_of_mem_clean (mem_toList_of_symbolAt h)

end Program

theorem LoopTable.fault_of_resolve_of_nonneg {p : Program} {t : LoopTable} {i : Int} {f : Fault}
    (hi : 0 ≤ i) (h : t.resolve p i = .error f) : f = .unmatchedOpener i := by
  unfold resolve at h
  split at h
  · cases h
  · split at h <;> rename_i hc <;> cases h
    exact Program.closerOf_eq_error hi hc

namespace Machine

/-- What a fault says is true of the machine: it names the instruction at which the machine stands,
which is one that can fail in this way under the configuration. No position and no cell is ever
looked for where there is none. -/
def Justifies (c : Config) (p : Program) (m : Machine) : Fault → Prop
  | .unmatchedOpener i => i = m.ip ∧ p.symbolAt i = .ok '['
  | .unpairedCloser i => i = m.ip ∧ p.symbolAt i = .ok ']'
  | .foreignSymbol s i => i = m.ip ∧ p.symbolAt i = .ok s ∧ isForeign s = true
  | .inputExhausted i => i = m.ip ∧ p.symbolAt i = .ok ',' ∧ c.eof = .error
  | .cellOutOfRange pointer size i =>
    i = m.ip ∧ (∃ s ∈ ['+', '-', '.', ',', '[', ']'], p.symbolAt i = .ok s) ∧
      pointer = m.dp ∧ size = m.tape.size ∧ ¬ (0 ≤ pointer ∧ pointer < size) ∧
      c.bounds ≠ .wrap ∧ (c.bounds = .grow → pointer < 0)
  | .stepLimit limit => c.maxSteps = some limit
  | .positionOutOfRange | .positionTooLarge | .noCells => False

/-- The machine stands in its program or at its end, and its tape is as long as it was set up, or
longer where it may grow. Each cell holds a byte, which any port takes, and every cell that is
addressed is on the tape, unless it is about to be appended. -/
structure Safe (c : Config) (p : Program) (m : Machine) : Prop where
  nonneg : 0 ≤ m.ip
  le_size : m.ip ≤ p.size
  pos : 1 ≤ c.memorySize
  memorySize_le : c.memorySize ≤ m.tape.size
  size_eq : c.bounds ≠ .grow → m.tape.size = c.memorySize
  byte : ∀ j, (m.tape.read j).toNat ≤ 255
  written : ∀ j kind, m.port.putValue kind (m.tape.read j).toNat = .ok (m.port.put (m.tape.read j))
  cell_lt : ∀ i, m.cell c = .ok i → i < m.tape.size ∨ c.bounds = .grow ∧ (i : Int) = m.dp

variable {c : Config} {p : Program} {m m' : Machine} {f : Fault}

theorem justifies_cellOutOfRange (h0 : 0 < m.tape.size) (hc : m.cell c = .error f)
    {k : Instruction} (hi : p.instructionAt m.ip = .ok k)
    (hk : k.symbol ∈ ['+', '-', '.', ',', '[', ']']) : m.Justifies c p f := by
  obtain ⟨rfl, hout, hw, hg⟩ := outside_of_cell h0 hc
  have hs := Program.symbolAt_of_instructionAt hi
  exact ⟨rfl, ⟨k.symbol, hk, hs⟩, rfl, rfl, hout, hw, hg⟩

theorem Tracked.justifies (h : m.Tracked p) (h0 : 0 < m.tape.size) (hh : m.hasHalted p = false)
    (hs : m.step c p = .failed f m') : m'.Justifies c p f := by
  have hlt : m.ip < p.size := by simpa [hasHalted] using hh
  cases fails_of_step hs with
  | fetch hi hm =>
    subst hm
    obtain ⟨s, rfl, hs, hf⟩ := Program.foreign_of_instructionAt h.nonneg hlt hi
    exact ⟨rfl, hs, hf⟩
  | missed k hi ho hc hm =>
    subst hm
    refine justifies_cellOutOfRange h0 hc hi ?_
    rw [step_eq_perform hi] at hs
    -- a move of the data pointer addresses no cell and cannot fail
    cases k with
    | moveRight | moveLeft => cases hs
    | openLoop => exact absurd rfl ho
    | _ => decide
  | exhausted i hi hc ht he hf hm =>
    rw [hm, hf]
    exact ⟨rfl, Program.symbolAt_of_instructionAt hi, he⟩
  | unmatched hi hr hm =>
    rw [hm, LoopTable.fault_of_resolve_of_nonneg h.nonneg hr]
    exact ⟨rfl, Program.symbolAt_of_instructionAt hi⟩
  | opened closer hi hr hc hm =>
    rw [hm]
    exact justifies_cellOutOfRange (m := { m with loops := m'.loops }) h0 hc hi (by decide)
  | unpaired i hi hc hne ho hm =>
    rw [hm, LoopTable.fault_of_openerOf ho]
    exact ⟨rfl, Program.symbolAt_of_instructionAt hi⟩

theorem Tracked.safe (h : m.Tracked p) (hsize : m.Sized c) : m.Safe c p where
  nonneg := h.nonneg
  le_size := h.le_size
  pos := c.memorySize_pos
  memorySize_le := hsize.le
  size_eq := hsize.eq
  byte j := Nat.le_of_lt_succ (m.tape.read j).toNat_lt
  written j kind := by
    have hlt := (m.tape.read j).toNat_lt
    rw [Port.putValue, if_pos (by omega), Int.toNat_natCast, UInt8.ofNat_toNat]
  cell_lt i hi := by
    have hcell := cell_eq_ok.1 hi
    by_cases hb : c.bounds = .grow
    · refine .inr ⟨hb, ?_⟩
      rw [BoundsPolicy.natCast_of_cell hcell, hb]
      rfl
    · exact .inl (BoundsPolicy.lt_of_cell hb hcell)

end Machine

namespace Run

variable {c : Config} {p : Program} {r : Run}

theorem justifies_of_failed {input : List UInt8} {n : ℕ} {f : Fault}
    (h : (Run.start c input).forward c p n = .failed f r) : r.machine.Justifies c p f := by
  rw [← p.forward_interpreter] at h
  obtain ⟨k, q, -, hq, -, ⟨limit, rfl, hl⟩ | ⟨hh, hs⟩⟩ := Interpreter.exists_running_of_failed h
  · exact Config.maxSteps_of_limitReached? hl
  · rw [p.forward_interpreter] at hq
    have hsize := sized_forward c p input k
    rw [hq] at hsize
    exact (tracked_of_running hq).justifies hsize.pos hh hs

/-- Wherever a run comes, its machine is in order; it halts exactly at the end of its program, and
where it fails, the fault tells the truth about one of the few things that can go wrong. A cleaned
program has no symbol that could be foreign. -/
theorem forward_safe (c : Config) (p : Program) (input : List UInt8) (n : ℕ) :
    let q := (Run.start c input).forward c p n
    q.run.machine.Safe c p ∧
    (∀ r, q = .halted r → r.machine.ip = p.size) ∧
    (∀ f r, q = .failed f r → r.machine.Justifies c p f) ∧
    ∀ source, p = .ofSource source → ∀ s i r, q ≠ .failed (.foreignSymbol s i) r := by
  intro q
  refine ⟨?_, ?_, fun f r hq => justifies_of_failed hq, ?_⟩
  · exact (tracked_forward (.of_fresh rfl rfl p) c n).safe (sized_forward c p input n)
  · intro r hq
    exact (exists_running_of_halted hq).2.1
  · rintro source rfl s i r hq
    obtain ⟨-, hs, hf⟩ := justifies_of_failed hq
    rw [Program.isForeign_of_symbolAt_ofSource hs] at hf
    cases hf

theorem safe_left_of_tape :
    let c : Config := { memorySize := 1, bounds := .grow }
    let p := Program.ofText "+[<-]"
    let written := Program.ofText "[-]x"
    let cleaned := Program.ofSource "[-]x"
    let run (p : Program) := (Run.start c []).forward c p 4
    (run p = .failed (.cellOutOfRange (-1) 1 3) (run p).run ∧
      (run p).run.machine.Justifies c p (.cellOutOfRange (-1) 1 3)) ∧
    (run written = .failed (.foreignSymbol 'x' 3) (run written).run ∧
      (run written).run.machine.Justifies c written (.foreignSymbol 'x' 3)) ∧
    run cleaned = .halted (run cleaned).run ∧ (run cleaned).run.machine.ip = cleaned.size ∧
      (run cleaned).run.machine.Safe c cleaned ∧
      ∀ s i r, run cleaned ≠ .failed (.foreignSymbol s i) r := by
  intro c p written cleaned run
  have hp : run p = .failed (.cellOutOfRange (-1) 1 3) (run p).run := by decide
  have hw : run written = .failed (.foreignSymbol 'x' 3) (run written).run := by decide
  have hc : run cleaned = .halted (run cleaned).run := by decide
  obtain ⟨hsafe, hend, -, hclean⟩ := forward_safe c cleaned [] 4
  exact ⟨⟨hp, (forward_safe c p [] 4).2.2.1 _ _ hp⟩,
    ⟨hw, (forward_safe c written [] 4).2.2.1 _ _ hw⟩, hc, hend _ hc, hsafe, hclean "[-]x" rfl⟩

end Run

end TapeMachine
