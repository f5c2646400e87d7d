import TapeMachine.Program
import TapeMachine.Text.Column

namespace TapeMachine

/-- Cuts a text into pieces of `width + 1` symbols; the last may be shorter. -/
def pieces (width : Nat) : List Char → List (List Char)
  | [] => []
  | c :: rest => (c :: rest.take width) :: pieces width (rest.drop width)
termination_by text => text.length
decreasing_by simp only [List.length_drop, List.length_cons]; omega

def listingLine (start : Nat) (piece : List Char) : List Char :=
  Text.padLeft 6 (Nat.toDigits 10 start) ++ [' ', ' '] ++ piece

def Program.listingLines (p : Program) (width : Nat) : List (List Char) :=
  (pieces (width - 1) p.toList).mapIdx fun k piece => listingLine (k * width) piece

def Program.listing (p : Program) (width : Nat) : List Char :=
  ['\n'].intercalate (p.listingLines width)

inductive ListingFault where
  | zeroWidth
  deriving DecidableEq

def ListingFault.message : ListingFault → String
  | zeroWidth => "range() arg 3 must not be zero"

/-- Lists a source without its foreign symbols; a negative width leaves no line. -/
def dump (source : String) (width : Int) : Except ListingFault String :=
  if width = 0 then .error .zeroWidth
  else if width < 0 then .ok ""
  else .ok (String.ofList ((Program.ofSource source).listing width.toNat))

end TapeMachine
