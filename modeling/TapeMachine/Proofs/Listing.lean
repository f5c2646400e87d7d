import TapeMachine.Program.Listing
import Mathlib.Data.List.Basic

namespace TapeMachine

section pieces

variable {width : ℕ} {text piece : List Char}

end pieces

section listing

variable {width start : ℕ} {text piece : List Char}

end listing

namespace Program

variable {p : Program}

end Program

end TapeMachine
