import TapeMachine.Proofs.Action
import TapeMachine.Proofs.Interpreter

namespace TapeMachine

def Instruction.addresses : Instruction → Bool
  | moveRight | moveLeft => false
  | _ => true

theorem Effect.pointerMove_of_addresses {e : Effect} (h : e.instruction.addresses = true) :
    e.pointerMove = 0 := by
  unfold pointerMove
  cases hk : e.instruction with
  | moveRight | moveLeft =>
    rw [hk] at h
    cases h
  | _ => rfl

namespace BoundsPolicy

variable {b : BoundsPolicy} {size i : ℕ} {pointer : Int}

/-- Where a pointer stands: under `wrap` its place on the circle, else where it points. -/
def place (b : BoundsPolicy) (size : ℕ) (pointer : Int) : Int :=
  if b = .wrap then pointer % size else pointer

theorem natCast_of_cell (h : b.cell size pointer = .ok i) : (i : Int) = b.place size pointer := by
  unfold cell at h
  split at h
  · rename_i hin
    cases h
    rw [Int.toNat_of_nonneg hin.1, place]
    split
    · exact (Int.emod_eq_of_lt hin.1 hin.2).symm
    · rfl
  · cases b with
    | error => cases h
    | wrap =>
      dsimp only at h
      split at h <;> rename_i h0 <;> cases h
      have hnn : 0 ≤ pointer % size := Int.emod_nonneg _ (Int.natCast_ne_zero.2 h0)
      exact Int.toNat_of_nonneg hnn
    | grow =>
      dsimp only at h
      split at h <;> rename_i hs <;> cases h
      exact Int.toNat_of_nonneg (Int.le_trans (Int.natCast_nonneg size) hs)

theorem lt_of_cell (hb : b ≠ .grow) (h : b.cell size pointer = .ok i) : i < size := by
  have hi := natCast_of_cell h
  unfold cell at h
  split at h
  · cases h
    omega
  · cases b with
    | error => cases h
    | wrap =>
      dsimp only at h
      split at h <;> rename_i h0 <;> cases h
      have hlt : pointer % size < size := Int.emod_lt_of_pos _ (by omega)
      rw [place, if_pos rfl] at hi
      omega
    | grow => exact absurd rfl hb

theorem cell_of_covered (h : b.cell size pointer = .ok i) :
    b.cell (max size (i + 1)) pointer = .ok i := by
  by_cases hi : i < size
  · rwa [Nat.max_eq_left hi]
  · -- the cell had to be appended, as only a growing tape allows
    have hb : b = .grow := by
      by_contra hb
      exact hi (lt_of_cell hb h)
    have hp : (i : Int) = pointer := by simpa [place, hb] using natCast_of_cell h
    have hin : 0 ≤ pointer ∧ pointer < (max size (i + 1) : ℕ) := by omega
    unfold cell
    rw [if_pos hin, ← hp, Int.toNat_natCast]

/-- A tape that has cells is missed only outside its bounds, and a growing one only below them. -/
theorem outside_of_cell (h0 : 0 < size) {f : CellFault} (h : b.cell size pointer = .error f) :
    f = .outOfRange ∧ ¬ (0 ≤ pointer ∧ pointer < size) ∧ b ≠ .wrap ∧ (b = .grow → pointer < 0) := by
  unfold cell at h
  split at h <;> rename_i hin
  · cases h
  · cases b with
    | error =>
      cases h
      exact ⟨rfl, hin, nofun, nofun⟩
    | wrap =>
      dsimp only at h
      rw [if_neg (Nat.ne_of_gt h0)] at h
      cases h
    | grow =>
      dsimp only at h
      split at h <;> rename_i hs <;> cases h
      exact ⟨rfl, hin, nofun, fun _ => by omega⟩

end BoundsPolicy

namespace Machine

variable {c : Config} {p : Program} {m m' : Machine} {e : Effect} {f : Fault} {i : ℕ}

theorem outside_of_cell (h0 : 0 < m.tape.size) (h : m.cell c = .error f) :
    f = .cellOutOfRange m.dp m.tape.size m.ip ∧ ¬ (0 ≤ m.dp ∧ m.dp < m.tape.size) ∧
      c.bounds ≠ .wrap ∧ (c.bounds = .grow → m.dp < 0) := by
  unfold cell at h
  split at h <;> rename_i hc <;> cases h
  · exact ⟨rfl, (BoundsPolicy.outside_of_cell h0 hc).2⟩
  · cases (BoundsPolicy.outside_of_cell h0 hc).1

theorem exists_cell_of_step (hs : m.step c p = .done e m')
    (ha : e.instruction.addresses = true) : ∃ i, m.cell c = .ok i := by
  obtain ⟨k, -, h⟩ := exists_perform_of_step_done hs
  cases k with
  | moveRight | moveLeft =>
    cases h
    cases ha
  | openLoop =>
    simp only [perform] at h
    split at h
    · cases h
    · obtain ⟨i, hc, -⟩ := atCell_eq_done.1 h
      exact ⟨i, hc⟩
  | _ =>
    simp only [perform, atCell_eq_done] at h
    obtain ⟨i, hc, -⟩ := h
    exact ⟨i, hc⟩

/-- What an executed instruction does to the tape, it does at one cell, which is there then. -/
theorem tape_of_step (hs : m.step c p = .done e m') :
    (e.instruction.addresses = false ∧ m'.tape = m.tape) ∨
    (e.instruction.addresses = true ∧ ∃ i, m.cell c = .ok i ∧
      m'.tape = (m.tape.cover i).store i (e.cellAfter c (m.tape.read i))) := by
  have ht := (acts_of_step hs).tape
  cases ha : e.instruction.addresses with
  | false =>
    refine .inl ⟨rfl, ?_⟩
    have hmove : e.pointerMove ≠ 0 := by
      unfold Effect.pointerMove
      cases hk : e.instruction <;> simp [hk, Instruction.addresses] at ha ⊢
    rw [ht, Effect.tapeAfter, if_neg hmove]
  | true =>
    obtain ⟨i, hi⟩ := exists_cell_of_step hs ha
    exact .inr ⟨rfl, i, hi, ht.trans (tapeAfter_of_cell hi (Effect.pointerMove_of_addresses ha))⟩

theorem Fails.tape (h : m.Fails c p f m') :
    m'.tape = m.tape ∨ ∃ i, m.cell c = .ok i ∧ m'.tape = m.tape.cover i := by
  cases h with
  | fetch hi hm | unmatched hi hr hm => exact .inl (hm ▸ rfl)
  | missed k hi ho hc hm => exact .inl (hm ▸ rfl)
  | exhausted i hi hc ht he hf hm => exact .inr ⟨i, hc, hm ▸ rfl⟩
  | opened closer hi hr hc hm =>
    left
    rw [hm]
  | unpaired i hi hc hne ho hm => exact .inr ⟨i, hc, hm ▸ rfl⟩

/-- The tape has at least the cells it was set up with, and others only if it may grow. -/
structure Sized (c : Config) (m : Machine) : Prop where
  le : c.memorySize ≤ m.tape.size
  eq : c.bounds ≠ .grow → m.tape.size = c.memorySize

namespace Sized

theorem start (c : Config) (input : List UInt8) : (Machine.start c input).Sized c where
  le := Nat.le_of_eq (Tape.size_blank _).symm
  eq _ := Tape.size_blank _

theorem pos (h : m.Sized c) : 0 < m.tape.size := Nat.lt_of_lt_of_le c.memorySize_pos h.le

theorem of_size_eq (h : m.Sized c) (hs : m'.tape.size = m.tape.size) : m'.Sized c :=
  ⟨hs ▸ h.le, fun hb => hs.trans (h.eq hb)⟩

theorem of_cell (h : m.Sized c) (hc : m.cell c = .ok i)
    (hs : m'.tape.size = max m.tape.size (i + 1)) : m'.Sized c where
  le := by
    have := h.le
    omega
  eq hb := by
    have hi := BoundsPolicy.lt_of_cell hb (cell_eq_ok.1 hc)
    have := h.eq hb
    omega

theorem step (h : m.Sized c) (hs : m.step c p = .done e m') : m'.Sized c := by
  obtain ⟨-, ht⟩ | ⟨-, i, hc, ht⟩ := tape_of_step hs
  · exact h.of_size_eq (ht ▸ rfl)
  · exact h.of_cell hc (by rw [ht, Tape.size_store, Tape.size_cover])

theorem failed (h : m.Sized c) (hs : m.step c p = .failed f m') : m'.Sized c := by
  obtain ht | ⟨i, hc, ht⟩ := (fails_of_step hs).tape
  · exact h.of_size_eq (ht ▸ rfl)
  · exact h.of_cell hc (by rw [ht, Tape.size_cover])

theorem natCast_of_cell (h : m.Sized c) (hc : m.cell c = .ok i) :
    (i : Int) = c.bounds.place c.memorySize m.dp := by
  rw [BoundsPolicy.natCast_of_cell (cell_eq_ok.1 hc), BoundsPolicy.place, BoundsPolicy.place]
  split
  · rename_i hb
    rw [h.eq (by simp [hb])]
  · rfl

end Sized

end Machine

theorem Run.sized_forward (c : Config) (p : Program) (input : List UInt8) (n : ℕ) :
    ((Run.start c input).forward c p n).run.machine.Sized c := by
  rw [← p.forward_interpreter]
  exact Interpreter.forward_induction (I := fun r => r.machine.Sized c) (.start c input)
    (fun _ _ _ h _ hs => h.step hs) (fun _ _ _ h _ hs => h.failed hs) n

end TapeMachine
