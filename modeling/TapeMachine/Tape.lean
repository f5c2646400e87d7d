import TapeMachine.Config

namespace TapeMachine

/-- A row of byte cells. Past its last cell a tape reads as zero. -/
structure Tape where
  cells : Array UInt8
  deriving DecidableEq, Inhabited

inductive TapeFault where
  | notByte
  deriving DecidableEq

def TapeFault.message : TapeFault → String
  | notByte => "byte must be in range(0, 256)"

namespace Tape

def blank (size : Nat) : Tape := ⟨Array.replicate size 0⟩

def size (t : Tape) : Nat := t.cells.size

def read (t : Tape) (i : Nat) : UInt8 := t.cells.getD i 0

def store (t : Tape) (i : Nat) (v : UInt8) : Tape := ⟨t.cells.setIfInBounds i v⟩

def cover (t : Tape) (i : Nat) : Tape :=
  if i < t.size then t else ⟨t.cells ++ Array.replicate (i + 1 - t.size) 0⟩

def ofValues (values : List Int) : Except TapeFault Tape :=
  if values.all fun v => 0 ≤ v && v < 256 then
    .ok ⟨(values.map fun v => UInt8.ofNat v.toNat).toArray⟩
  else .error .notByte

@[simp] theorem size_blank (n : Nat) : (blank n).size = n := by
  simp only [blank, size, Array.size_replicate]

@[simp] theorem size_store (t : Tape) (i : Nat) (v : UInt8) : (t.store i v).size = t.size := by
  simp only [store, size, Array.size_setIfInBounds]

theorem size_cover (t : Tape) (i : Nat) : (t.cover i).size = max t.size (i + 1) := by
  unfold cover
  split
  · omega
  · simp only [size, Array.size_append, Array.size_replicate] at *
    omega

@[simp] theorem read_blank (n i : Nat) : (blank n).read i = 0 := by
  by_cases h : i < n <;> simp [blank, read, Array.getD, h]

@[simp] theorem read_cover (t : Tape) (i j : Nat) : (t.cover i).read j = t.read j := by
  unfold cover
  split
  · rfl
  · by_cases h : j < t.cells.size
    · simp [read, Array.getD_eq_getD_getElem?, Array.getElem?_append_left h]
    · simp only [read, Array.getD_eq_getD_getElem?, Array.getElem?_append_right (Nat.not_lt.1 h),
        Array.getElem?_replicate, Array.getElem?_eq_none (Nat.not_lt.1 h)]
      split <;> rfl

theorem read_store (t : Tape) (i j : Nat) (v : UInt8) :
    (t.store i v).read j = if i = j ∧ i < t.size then v else t.read j := by
  simp only [read, store, size, Array.getD_eq_getD_getElem?, Array.getElem?_setIfInBounds]
  by_cases h : i = j <;> by_cases hi : i < t.cells.size <;> simp [h, hi]
  · simp [h ▸ hi]
  · simp [← h, hi]

end Tape

inductive CellFault where
  | outOfRange
  | noCells
  deriving DecidableEq

/-- The cell that a data pointer stands for on a tape of the given size, which under `grow` may
still have to be appended. -/
def BoundsPolicy.cell (b : BoundsPolicy) (size : Nat) (pointer : Int) : Except CellFault Nat :=
  if 0 ≤ pointer ∧ pointer < size then .ok pointer.toNat
  else match b with
    | .error => .error .outOfRange
    | .wrap => if size = 0 then .error .noCells else .ok (pointer % size).toNat
    | .grow => if size ≤ pointer then .ok pointer.toNat else .error .outOfRange

end TapeMachine
