import TapeMachine.Program

namespace TapeMachine

/-- How often instructions have been met, in the order in which they were met first. -/
abbrev Census := List (Instruction × Nat)

namespace Census

/-- An instruction that is met for the first time comes last. -/
def add : Census → Instruction → Census
  | [], k => [(k, 1)]
  | (l, n) :: c, k => if l = k then (l, n + 1) :: c else (l, n) :: add c k

theorem add_cons_self (k : Instruction) (n : Nat) (c : Census) :
    add ((k, n) :: c) k = (k, n + 1) :: c := if_pos rfl

theorem add_cons_of_ne {k l : Instruction} (h : l ≠ k) (n : Nat) (c : Census) :
    add ((l, n) :: c) k = (l, n) :: c.add k := if_neg h

end Census

namespace Program

/-- The census of the first `n` symbols, read one after the other up to the first foreign one. -/
def censusTo (p : Program) (n : Nat) : Except Fault Census :=
  (List.range n).foldlM (fun c (i : Nat) => (p.instructionAt i).map c.add) []

def census (p : Program) : Except Fault Census := p.censusTo p.size

end Program

/-- The deepest nesting in a text at whose start `depth` loops are open. A closer outside all
loops closes nothing. -/
def deepest (depth : Nat) : List Char → Nat
  | [] => depth
  | c :: rest =>
    if c = '[' then deepest (depth + 1) rest
    else if c = ']' then max depth (deepest (depth - 1) rest)
    else deepest depth rest

def Program.maxLoopDepth (p : Program) : Nat := deepest 0 p.toList

theorem le_deepest (depth : Nat) (text : List Char) : depth ≤ deepest depth text := by
  induction text generalizing depth with
  | nil => exact Nat.le_refl depth
  | cons c rest ih =>
    unfold deepest
    split
    · exact Nat.le_trans (Nat.le_succ depth) (ih _)
    · split
      · exact Nat.le_max_left _ _
      · exact ih depth

end TapeMachine
