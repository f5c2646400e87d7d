import TapeMachine.Proofs.Faults

namespace TapeMachine

namespace Tape

def padded (t : Tape) (n : ℕ) : Tape := ⟨t.cells ++ Array.replicate (n - t.size) 0⟩

variable {s t : Tape} {i n : ℕ}

@[simp] theorem size_padded (t : Tape) (n : ℕ) : (t.padded n).size = max t.size n := by
  simp only [padded, size, Array.size_append, Array.size_replicate]
  omega

theorem padded_of_le (h : n ≤ t.size) : t.padded n = t := by
  have hn : n - t.size = 0 := by omega
  simp only [padded, hn, Array.replicate_zero, Array.append_empty]

theorem cover_eq_padded (t : Tape) (i : ℕ) : t.cover i = t.padded (i + 1) := by
  unfold cover
  split
  · rw [padded_of_le (by omega)]
  · rfl

@[simp] theorem read_padded (t : Tape) (n i : ℕ) : (t.padded n).read i = t.read i := by
  cases n with
  | zero => rw [padded_of_le (Nat.zero_le _)]
  | succ n => rw [← cover_eq_padded, read_cover]

/-- Tapes of one length are told apart by what is read from their cells. -/
theorem eq_of_read (hs : s.size = t.size) (h : ∀ i < s.size, s.read i = t.read i) : s = t := by
  obtain ⟨s⟩ := s
  obtain ⟨t⟩ := t
  congr 1
  apply Array.ext hs
  intro i hi hi'
  have hr := h i hi
  simp only [read, Array.getD_eq_getD_getElem?, Array.getElem?_eq_getElem hi,
    Array.getElem?_eq_getElem hi'] at hr
  exact hr

theorem padded_padded (t : Tape) (m n : ℕ) : (t.padded m).padded n = t.padded (max m n) := by
  apply eq_of_read
  · simp only [size_padded, Nat.max_assoc]
  · simp only [read_padded, implies_true]

theorem padded_blank (m n : ℕ) : (blank m).padded n = blank (max m n) := by
  apply eq_of_read
  · simp only [size_padded, size_blank]
  · simp only [read_padded, read_blank, implies_true]

theorem padded_cover (t : Tape) (i n : ℕ) : (t.padded n).cover i = (t.cover i).padded n := by
  rw [cover_eq_padded, cover_eq_padded, padded_padded, padded_padded, Nat.max_comm]

theorem padded_store (h : i < t.size) (v : UInt8) (n : ℕ) :
    (t.padded n).store i v = (t.store i v).padded n := by
  apply eq_of_read
  · simp only [size_store, size_padded]
  · intro j _
    have hn : i < max t.size n := by omega
    simp only [read_store, read_padded, size_padded, h, hn]

end Tape

namespace BoundsPolicy

theorem cell_grow (size : ℕ) (pointer : Int) : grow.cell size pointer =
    if 0 ≤ pointer then .ok pointer.toNat else .error .outOfRange := by
  unfold cell
  by_cases hp : 0 ≤ pointer
  · by_cases hs : pointer < size
    · rw [if_pos ⟨hp, hs⟩, if_pos hp]
    · rw [if_neg fun h => hs h.2, if_pos hp]
      exact if_pos (Int.not_lt.1 hs)
  · have hs : ¬ (size : Int) ≤ pointer := by omega
    rw [if_neg fun h => hp h.1, if_neg hp]
    exact if_neg hs

/-- On the tape itself a fixed tape has the same cells as a growing one. -/
theorem cell_error_of_lt {size : ℕ} {pointer : Int} (h : pointer < size) :
    error.cell size pointer = grow.cell size pointer := by
  rw [cell_grow]
  by_cases hp : 0 ≤ pointer
  · rw [cell, if_pos ⟨hp, h⟩, if_pos hp]
  · rw [cell, if_neg fun h => hp h.1, if_neg hp]

end BoundsPolicy

/-- The fault of a tape that is filled up to `n` cells. -/
def Fault.padded (n : ℕ) : Fault → Fault
  | cellOutOfRange pointer size i => cellOutOfRange pointer (max size n) i
  | f => f

def Fault.isCellOutOfRange : Fault → Bool
  | cellOutOfRange .. => true
  | _ => false

theorem Fault.padded_of_isCellOutOfRange {f : Fault} (h : f.isCellOutOfRange = false) (n : ℕ) :
    f.padded n = f := by
  cases f with
  | cellOutOfRange pointer size i => cases h
  | _ => rfl

namespace Program

variable {p : Program} {i : Int} {f : Fault}

theorem isCellOutOfRange_noSymbol (i : Int) : (noSymbol i).isCellOutOfRange = false := by
  obtain h | h := noSymbol_cases i <;> rw [h] <;> rfl

theorem isCellOutOfRange_of_instructionAt (h : p.instructionAt i = .error f) :
    f.isCellOutOfRange = false := by
  obtain rfl | ⟨s, rfl⟩ := fault_of_instructionAt h
  · exact isCellOutOfRange_noSymbol i
  · rfl

end Program

namespace LoopTable

variable {p : Program} {t : LoopTable} {i : Int} {f : Fault}

theorem isCellOutOfRange_of_resolve (h : t.resolve p i = .error f) :
    f.isCellOutOfRange = false := by
  obtain rfl | rfl := fault_of_resolve h
  · rfl
  · exact Program.isCellOutOfRange_noSymbol (i + 1)

theorem isCellOutOfRange_of_openerOf (h : t.openerOf i = .error f) :
    f.isCellOutOfRange = false := by
  rw [fault_of_openerOf h]
  rfl

end LoopTable

end TapeMachine
