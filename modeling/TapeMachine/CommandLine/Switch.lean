namespace TapeMachine.CommandLine

inductive Switch where
  | help
  | memorySize
  | onEof
  | outOfBounds
  | maxSteps
  | stats
  | verbose
  deriving DecidableEq

namespace Switch

/-- All spellings, in the order in which they are offered. -/
def spellings : List (String × Switch) := [
  ("-h", help), ("--help", help),
  ("--memory-size", memorySize), ("-m", memorySize),
  ("--on-eof", onEof),
  ("--out-of-bounds", outOfBounds),
  ("--max-steps", maxSteps), ("-n", maxSteps),
  ("--stats", stats),
  ("--verbose", verbose), ("-v", verbose)]

def ofSpelling? (text : String) : Option Switch :=
  (spellings.find? fun e => e.1 = text).map (·.2)

def takesValue : Switch → Bool
  | help => false
  | memorySize => true
  | onEof => true
  | outOfBounds => true
  | maxSteps => true
  | stats => false
  | verbose => false

def title (s : Switch) : String :=
  "/".intercalate ((spellings.filter fun e => e.2 = s).map (·.1))

end Switch

end TapeMachine.CommandLine
