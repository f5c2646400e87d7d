namespace TapeMachine

inductive Instruction where
  | moveRight
  | moveLeft
  | increment
  | decrement
  | write
  | read
  | openLoop
  | closeLoop
  deriving DecidableEq, Inhabited

namespace Instruction

def symbol : Instruction → Char
  | moveRight => '>'
  | moveLeft => '<'
  | increment => '+'
  | decrement => '-'
  | write => '.'
  | read => ','
  | openLoop => '['
  | closeLoop => ']'

def ofSymbol? : Char → Option Instruction
  | '>' => some moveRight
  | '<' => some moveLeft
  | '+' => some increment
  | '-' => some decrement
  | '.' => some write
  | ',' => some read
  | '[' => some openLoop
  | ']' => some closeLoop
  | _ => none

/-- The name under which an instruction is listed and counted. -/
def name : Instruction → String
  | moveRight => "INC_POINTER"
  | moveLeft => "DEC_POINTER"
  | increment => "INC_MEMORY"
  | decrement => "DEC_MEMORY"
  | write => "OUTPUT"
  | read => "INPUT"
  | openLoop => "JUMP_IF_ZERO"
  | closeLoop => "JUMP_IF_NOT_ZERO"

@[simp] theorem ofSymbol?_symbol (i : Instruction) : ofSymbol? i.symbol = some i := by
  cases i <;> rfl

theorem ofSymbol?_eq_some_iff {c : Char} {i : Instruction} :
    ofSymbol? c = some i ↔ c = i.symbol := by
  refine ⟨fun h => ?_, fun h => h ▸ ofSymbol?_symbol i⟩
  unfold ofSymbol? at h
  split at h <;> cases h <;> rfl

theorem symbol_injective {i j : Instruction} (h : i.symbol = j.symbol) : i = j := by
  have he := congrArg ofSymbol? h
  simpa only [ofSymbol?_symbol, Option.some.injEq] using he

end Instruction

/-- A symbol is foreign when it stands for no instruction. -/
def isForeign (c : Char) : Bool := (Instruction.ofSymbol? c).isNone

@[simp] theorem isForeign_symbol (i : Instruction) : isForeign i.symbol = false := by
  simp only [isForeign, Instruction.ofSymbol?_symbol, Option.isNone_some]

end TapeMachine
