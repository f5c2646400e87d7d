import TapeMachine.Text.Digit

namespace TapeMachine.Text.Numeral

def maxDigits : Nat := 4300

/-- Digits of any script become those of ASCII, and white space the space; a character that can
stand in no numeral becomes a question mark. -/
def plain (c : Char) : Char :=
  if c.toNat < 127 then c
  else if isWideBlank c then ' '
  else match digitValue? c with
    | some n => Nat.digitChar n
    | none => '?'

/-- Reads on after `count` digits of value `value`; one underscore may stand before a digit. -/
def digitsAfter (value count : Nat) : List Char → Option (Nat × Nat)
  | [] => some (value, count)
  | '_' :: c :: rest =>
    if c.isDigit then digitsAfter (10 * value + (c.toNat - 48)) (count + 1) rest else none
  | c :: rest =>
    if c.isDigit then digitsAfter (10 * value + (c.toNat - 48)) (count + 1) rest else none

def natural? : List Char → Option Nat
  | [] => none
  | c :: rest =>
    if c = '_' then none
    else match digitsAfter 0 0 (c :: rest) with
      | some (value, count) => if count ≤ maxDigits then some value else none
      | none => none

def trim (text : List Char) : List Char :=
  ((text.dropWhile isBlank).reverse.dropWhile isBlank).reverse

/-- An integer in decimal, with an optional sign and white space around it. -/
def integer? (text : List Char) : Option Int :=
  match trim (text.map plain) with
  | '+' :: rest => (natural? rest).map Int.ofNat
  | '-' :: rest => (natural? rest).map fun n => -Int.ofNat n
  | rest => (natural? rest).map Int.ofNat

end TapeMachine.Text.Numeral
