import TapeMachine.Text.Escape

namespace TapeMachine.Text.Latin1

/-- The first run of characters that have no byte, by the positions of its ends, and the first
of them. -/
structure Unencodable where
  first : Nat
  last : Nat
  char : Char
  deriving DecidableEq

def isEncodable (c : Char) : Bool := c.toNat < 256

def encode (text : List Char) : Except Unencodable (List UInt8) :=
  match text.dropWhile isEncodable with
  | [] => .ok (text.map fun c => UInt8.ofNat c.toNat)
  | c :: rest =>
    let first := (text.takeWhile isEncodable).length
    .error ⟨first, first + (rest.takeWhile fun c => !isEncodable c).length, c⟩

def decode (bytes : List UInt8) : List Char := bytes.map fun b => Char.ofNat b.toNat

def Unencodable.message (e : Unencodable) : String :=
  if e.first = e.last then
    "'latin-1' codec can't encode character '" ++ String.ofList (escape e.char) ++
      s!"' in position {e.first}: ordinal not in range(256)"
  else
    s!"'latin-1' codec can't encode characters in position {e.first}-{e.last}: " ++
      "ordinal not in range(256)"

theorem toNat_ofNat_byte (b : UInt8) : (Char.ofNat b.toNat).toNat = b.toNat := by
  have hb : b.toNat < 256 := b.toNat_lt
  have hv : b.toNat.isValidChar := Or.inl (by omega)
  unfold Char.ofNat
  rw [dif_pos hv]
  rfl

end TapeMachine.Text.Latin1
