namespace TapeMachine.Text

/-- The exact value `± mantissa * 2 ^ exponent` of a finite double. -/
structure Dyadic where
  negative : Bool
  mantissa : Nat
  exponent : Int
  deriving DecidableEq

inductive Binary64 where
  | finite (value : Dyadic)
  | infinite (negative : Bool)
  | notANumber
  deriving DecidableEq

/-- One bit of sign, eleven of exponent, and fifty-two of fraction, under which a normal number has
a leading one. -/
def Binary64.ofBits (bits : UInt64) : Binary64 :=
  let n := bits.toNat
  let negative := n >>> 63 = 1
  let exponent : Nat := (n >>> 52) % 2048
  let fraction := n % 0x10000000000000
  if exponent = 2047 then if fraction = 0 then .infinite negative else .notANumber
  else if exponent = 0 then .finite ⟨negative, fraction, -1074⟩
  else .finite ⟨negative, 0x10000000000000 + fraction, (exponent : Int) - 1075⟩

/-- The integer nearest to a quotient; a half goes to the even neighbour. -/
def roundHalfEven (numerator denominator : Nat) : Nat :=
  let q := numerator / denominator
  let r := numerator % denominator
  if 2 * r < denominator then q
  else if denominator < 2 * r then q + 1
  else if q % 2 = 0 then q else q + 1

def Dyadic.tenths (x : Dyadic) : Nat :=
  if 0 ≤ x.exponent then (10 * x.mantissa) <<< x.exponent.toNat
  else roundHalfEven (10 * x.mantissa) (1 <<< (-x.exponent).toNat)

/-- Exactly one decimal and never an exponent; the sign stays, also before a zero. -/
def Dyadic.oneDecimal (x : Dyadic) : String :=
  (if x.negative then "-" else "") ++ s!"{x.tenths / 10}.{x.tenths % 10}"

def oneDecimal (x : Float) : String :=
  match Binary64.ofBits x.toBits with
  | .finite d => d.oneDecimal
  | .infinite negative => if negative then "-inf" else "inf"
  | .notANumber => "nan"

end TapeMachine.Text
