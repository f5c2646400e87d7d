import TapeMachine.Instruction
import TapeMachine.Fault

namespace TapeMachine

/-- A program is its text, foreign symbols included; they fail only when they are executed. -/
structure Program where
  symbols : Array Char
  deriving DecidableEq, Inhabited

/-- Keeps the eight instruction symbols in their order. -/
def clean (source : List Char) : List Char := source.filter fun c => !isForeign c

namespace Program

def ofList (text : List Char) : Program := ⟨text.toArray⟩

def toList (p : Program) : List Char := p.symbols.toList

def ofText (text : String) : Program := ofList text.toList

def ofSource (source : String) : Program := ofList (clean source.toList)

def text (p : Program) : String := String.ofList p.toList

def size (p : Program) : Nat := p.symbols.size

/-- A position that has no symbol is out of range, or does not even fit a signed 64-bit word. -/
def noSymbol (i : Int) : Fault :=
  if -9223372036854775808 ≤ i ∧ i < 9223372036854775808 then .positionOutOfRange
  else .positionTooLarge

/-- A negative position counts from the end of the text. -/
def symbolAt (p : Program) (i : Int) : Except Fault Char :=
  let k := if i < 0 then i + p.size else i
  if k < 0 then .error (noSymbol i)
  else match p.symbols[k.toNat]? with
    | some c => .ok c
    | none => .error (noSymbol i)

def instructionAt (p : Program) (i : Int) : Except Fault Instruction :=
  match p.symbolAt i with
  | .error f => .error f
  | .ok c =>
    match Instruction.ofSymbol? c with
    | some k => .ok k
    | none => .error (.foreignSymbol c i)

/-- What a reader sees who starts at position `i` and goes on to the end of the text; a start
before the text is counted from its end, and then the whole text follows. -/
def symbolsFrom (p : Program) (i : Int) : Except Fault (List Char) :=
  if 0 ≤ i then .ok (p.toList.drop i.toNat)
  else if 0 ≤ i + p.size then .ok (p.toList.drop (i + p.size).toNat ++ p.toList)
  else .error (noSymbol i)

@[simp] theorem toList_ofList (text : List Char) : (ofList text).toList = text := rfl

@[simp] theorem length_toList (p : Program) : p.toList.length = p.size := by
  simp only [toList, size, Array.length_toList]

theorem symbolAt_of_instructionAt {p : Program} {i : Int} {k : Instruction}
    (h : p.instructionAt i = .ok k) : p.symbolAt i = .ok k.symbol := by
  unfold instructionAt at h
  split at h
  · cases h
  · rename_i s hs
    split at h <;> rename_i hk <;> cases h
    rw [hs, Instruction.ofSymbol?_eq_some_iff.1 hk]

end Program

theorem clean_append (s t : List Char) : clean (s ++ t) = clean s ++ clean t := by
  simp only [clean, List.filter_append]

theorem not_isForeign_of_mem_clean {s : List Char} {c : Char} (h : c ∈ clean s) :
    isForeign c = false := by
  simpa using (List.mem_filter.1 h).2

end TapeMachine
