namespace TapeMachine

/-- What a read does when no byte is left. -/
inductive EofPolicy where
  | error
  | zero
  | unchanged
  deriving DecidableEq, Inhabited

/-- What becomes of a data pointer outside the tape. -/
inductive BoundsPolicy where
  | error
  | wrap
  | grow
  deriving DecidableEq, Inhabited

namespace EofPolicy

def all : List EofPolicy := [error, zero, unchanged]

def name : EofPolicy → String
  | error => "error"
  | zero => "zero"
  | unchanged => "unchanged"

def ofName? (text : String) : Option EofPolicy := all.find? fun p => p.name = text

end EofPolicy

namespace BoundsPolicy

def all : List BoundsPolicy := [error, wrap, grow]

def name : BoundsPolicy → String
  | error => "error"
  | wrap => "wrap"
  | grow => "grow"

def ofName? (text : String) : Option BoundsPolicy := all.find? fun p => p.name = text

end BoundsPolicy

def defaultMemorySize : Nat := 100

theorem defaultMemorySize_pos : 0 < defaultMemorySize := by decide

structure Config where
  memorySize : Nat := defaultMemorySize
  eof : EofPolicy := .error
  bounds : BoundsPolicy := .error
  maxSteps : Option Nat := none
  reportStats : Bool := false
  memorySize_pos : 0 < memorySize := by decide

instance : Inhabited Config := ⟨{ memorySize_pos := defaultMemorySize_pos }⟩

/-- A configuration as it is asked for, before anything about it is known. -/
structure Settings where
  memorySize : Int := defaultMemorySize
  eof : String := "error"
  bounds : String := "error"
  maxSteps : Option Int := none
  reportStats : Bool := false

inductive ConfigFault where
  | unknownEofPolicy (name : String)
  | unknownBoundsPolicy (name : String)
  | memorySizeNotPositive (given : Int)
  | maxStepsNegative (given : Int)
  deriving DecidableEq

def stepLimit? : Option Int → Except ConfigFault (Option Nat)
  | none => .ok none
  | some n => if n < 0 then .error (.maxStepsNegative n) else .ok (some n.toNat)

/-- The policies are checked before the numbers, and the first failure counts. -/
def Settings.config (s : Settings) : Except ConfigFault Config :=
  match EofPolicy.ofName? s.eof with
  | none => .error (.unknownEofPolicy s.eof)
  | some eof =>
    match BoundsPolicy.ofName? s.bounds with
    | none => .error (.unknownBoundsPolicy s.bounds)
    | some bounds =>
      if h : 0 < s.memorySize then
        match stepLimit? s.maxSteps with
        | .error f => .error f
        | .ok maxSteps => .ok {
            memorySize := s.memorySize.toNat
            eof, bounds, maxSteps
            reportStats := s.reportStats
            memorySize_pos := Int.lt_toNat.2 h }
      else .error (.memorySizeNotPositive s.memorySize)

end TapeMachine
