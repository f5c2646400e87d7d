import TapeMachine.Config
import TapeMachine.Fault
import TapeMachine.Text.Quoted

namespace TapeMachine

def Fault.message : Fault → String
  | unmatchedOpener index =>
    s!"Could not find a closing bracket for opening bracket at index {index}"
  | unpairedCloser index =>
    s!"Encountered closing bracket of loop at {index} before opening bracket"
  | foreignSymbol symbol index =>
    "Invalid instruction char " ++ Text.quoted (String.singleton symbol) ++ s!" at index {index}"
  | inputExhausted index => s!"Input exhausted while reading at instruction {index}"
  | cellOutOfRange pointer size index =>
    s!"Data pointer {pointer} out of range for tape of {size} cells (instruction {index})"
  | stepLimit limit => s!"Step limit of {limit} exceeded"
  | positionOutOfRange => "string index out of range"
  | positionTooLarge => "cannot fit 'int' into an index-sized integer"
  | noCells => "integer modulo by zero"

def ConfigFault.message : ConfigFault → String
  | unknownEofPolicy name => Text.quoted name ++ " is not a valid EofPolicy"
  | unknownBoundsPolicy name => Text.quoted name ++ " is not a valid BoundsPolicy"
  | memorySizeNotPositive given => s!"memory_size must be positive, got {given}"
  | maxStepsNegative given => s!"max_steps must be non-negative, got {given}"

end TapeMachine
