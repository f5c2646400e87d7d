import TapeMachine.Program

namespace TapeMachine

/-- The position of the closer that ends `depth + 1` open loops, in symbols laid out from
position `index` on. -/
def closerWithin (depth : Nat) (index : Int) : List Char → Option Int
  | [] => none
  | c :: rest =>
    if c = '[' then closerWithin (depth + 1) (index + 1) rest
    else if c = ']' then
      match depth with
      | 0 => some index
      | d + 1 => closerWithin d (index + 1) rest
    else closerWithin depth (index + 1) rest

/-- The closer that belongs to an opener at `opener`, whatever symbol stands there. -/
def Program.closerOf (p : Program) (opener : Int) : Except Fault Int :=
  if p.size ≤ opener + 1 then .error (.unmatchedOpener opener)
  else match p.symbolsFrom (opener + 1) with
    | .error f => .error f
    | .ok rest =>
      match closerWithin 0 (opener + 1) rest with
      | some closer => .ok closer
      | none => .error (.unmatchedOpener opener)

theorem closerWithin_shift (k : Int) (text : List Char) :
    ∀ depth index, closerWithin depth (index + k) text = (closerWithin depth index text).map (· + k) := by
  induction text with
  | nil => intros; rfl
  | cons c rest ih =>
    intro depth index
    have hk : index + k + 1 = index + 1 + k := by omega
    simp only [closerWithin, hk]
    split
    · exact ih _ _
    · split
      · cases depth with
        | zero => rfl
        | succ d => exact ih _ _
      · exact ih _ _

end TapeMachine
