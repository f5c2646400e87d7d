namespace TapeMachine

/-- Everything that can stop a machine before the end of its program. An `index` is the position
of the instruction that failed, as the machine held it. -/
inductive Fault where
  | unmatchedOpener (index : Int)
  | unpairedCloser (index : Int)
  | foreignSymbol (symbol : Char) (index : Int)
  | inputExhausted (index : Int)
  | cellOutOfRange (pointer : Int) (size : Nat) (index : Int)
  | stepLimit (limit : Nat)
  /-- No symbol stands at the position, counted from either end. -/
  | positionOutOfRange
  /-- The position does not fit a signed 64-bit word. -/
  | positionTooLarge
  /-- A circular tape without cells has no cell for any pointer. -/
  | noCells
  deriving DecidableEq

end TapeMachine
