namespace TapeMachine

structure Port where
  unread : List UInt8 := []
  consumed : Nat := 0
  written : Array UInt8 := #[]
  deriving DecidableEq, Inhabited

namespace Port

def ofInput (input : List UInt8) : Port := { unread := input }

def take? (p : Port) : Option (UInt8 × Port) :=
  match p.unread with
  | [] => none
  | b :: rest => some (b, { p with unread := rest, consumed := p.consumed + 1 })

def put (p : Port) (b : UInt8) : Port := { p with written := p.written.push b }

def feed (p : Port) (more : List UInt8) : Port := { p with unread := p.unread ++ more }

@[simp] theorem toList_written_put (p : Port) (b : UInt8) :
    (p.put b).written.toList = p.written.toList ++ [b] := by
  simp only [put, Array.toList_push]

theorem take?_eq_none_iff (p : Port) : p.take? = none ↔ p.unread = [] := by
  unfold take?
  split <;> simp [*]

end Port

/-- What a port is connected to: two byte strings, or the streams of the process. -/
inductive PortKind where
  | buffered
  | stdio
  deriving DecidableEq

inductive PortFault where
  | unknownKind (name : String)
  | notByte (kind : PortKind)
  deriving DecidableEq

def PortFault.message : PortFault → String
  | unknownKind name => "Unknown backend: " ++ name
  | notByte .buffered => "byte must be in range(0, 256)"
  | notByte .stdio => "bytes must be in range(0, 256)"

def PortKind.ofName (name : String) : Except PortFault PortKind :=
  if name = "stdio" then .ok .stdio
  else if name = "buffered" then .ok .buffered
  else .error (.unknownKind name)

/-- Only the numbers below 256 are bytes. -/
def Port.putValue (p : Port) (kind : PortKind) (v : Int) : Except PortFault Port :=
  if 0 ≤ v ∧ v < 256 then .ok (p.put (UInt8.ofNat v.toNat)) else .error (.notByte kind)

end TapeMachine
