import TapeMachine.Proofs.Accounting
import TapeMachine.Proofs.Passage
import TapeMachine.Proofs.Repetition
import Mathlib.Data.List.TakeWhile

namespace TapeMachine

/-- Copies the input up to the first zero byte. -/
def copyProgram : Program := .ofList [',', '[', '.', ',', ']']

theorem copyProgram_hasLoop : copyProgram.HasLoop 1 4 :=
  ⟨1, 4, rfl, rfl, isLoop_iff.2 (by decide)⟩

def beforeZero (input : List UInt8) : List UInt8 := input.takeWhile (· ≠ 0)

theorem ne_zero_of_mem_beforeZero {input : List UInt8} {b : UInt8} (h : b ∈ beforeZero input) :
    b ≠ 0 := by
  have hb := List.mem_takeWhile_imp h
  simpa using hb

theorem beforeZero_of_not_mem {input : List UInt8} (h : 0 ∉ input) : beforeZero input = input := by
  refine List.takeWhile_eq_self_iff.2 fun b hb => decide_eq_true fun hz => ?_
  exact h (hz ▸ hb)

theorem exists_eq_beforeZero {input : List UInt8} (h : 0 ∈ input) :
    ∃ rest, input = beforeZero input ++ 0 :: rest := by
  obtain ⟨front, rest, rfl, hfront⟩ := List.eq_append_cons_of_mem h
  refine ⟨rest, ?_⟩
  have hall : ∀ b ∈ front, decide (b ≠ 0) = true := fun b hb =>
    decide_eq_true fun hz => hfront (hz ▸ hb)
  rw [beforeZero, List.takeWhile_append_of_pos hall]
  simp

def firstCell (c : Config) (b : UInt8) : Tape := (Tape.blank c.memorySize).store 0 b

def nextRead (bytes : List UInt8) : ℕ := if bytes = [] then 0 else 3

def loopsAfter (bytes : List UInt8) : LoopTable := if bytes = [] then {} else ⟨[(1, 4)]⟩

theorem size_firstCell_pos (c : Config) (b : UInt8) : 0 < (firstCell c b).size := by
  rw [firstCell, Tape.size_store, Tape.size_blank]
  exact c.memorySize_pos

theorem read_firstCell (c : Config) (b : UInt8) : (firstCell c b).read 0 = b :=
  Tape.read_store_self (by rw [Tape.size_blank]; exact c.memorySize_pos)

theorem store_firstCell (c : Config) (b v : UInt8) : (firstCell c b).store 0 v = firstCell c v :=
  Tape.store_store ..

theorem firstCell_zero (c : Config) : firstCell c 0 = .blank c.memorySize := by
  rw [firstCell, ← Tape.read_blank c.memorySize 0, Tape.store_read]

theorem nextRead_lt (bytes : List UInt8) : nextRead bytes < 5 := by
  unfold nextRead
  split <;> decide

theorem instructionAt_nextRead (bytes : List UInt8) :
    copyProgram.instructionAt (nextRead bytes) = .ok .read := by
  unfold nextRead
  split <;> rfl

namespace Machine

variable {c : Config} {bytes rest : List UInt8} {b : UInt8} {tape : Tape} {port : Port}

/-- The machine that has copied some bytes and not yet read the next. -/
def copied (c : Config) (bytes rest : List UInt8) : Machine :=
  mk (nextRead bytes) (0 : ℕ) (firstCell c (bytes.getLast?.getD 0)) (loopsAfter bytes)
    ⟨rest, bytes.length, bytes.toArray⟩

theorem start_eq_copied (c : Config) (input : List UInt8) : start c input = copied c [] input := by
  rw [copied, List.getLast?_nil, Option.getD_none, firstCell_zero]
  rfl

theorem passes_bracket (bytes : List UInt8) (h0 : 0 < tape.size) :
    Passes c copyProgram 0 5 1 (mk (nextRead bytes + 1 : ℕ) (0 : ℕ) tape (loopsAfter bytes) port)
      (mk (if tape.read 0 = 0 then 5 else 2 : ℕ) (0 : ℕ) tape ⟨[(1, 4)]⟩ port) := by
  have hloop := copyProgram_hasLoop
  unfold nextRead loopsAfter
  -- behind the first read stands the opener, behind the other one the closer
  by_cases hb : bytes = []
  · have hr : LoopTable.resolve {} copyProgram 1 = .ok (4, ⟨[(1, 4)]⟩) := by decide
    rw [if_pos hb, if_pos hb]
    exact .single (by decide) (by decide) (step_openLoop (v := 4) hloop.instructionAt_opener h0 hr)
  · have ho : LoopTable.openerOf ⟨[(1, 4)]⟩ 4 = .ok 1 := by decide
    rw [if_neg hb, if_neg hb]
    exact .single (by decide) (by decide)
      (step_closeLoop (v := 1) hloop.instructionAt_closer h0 ho)

theorem step_copied_cons (c : Config) (bytes rest : List UInt8) :
    (copied c bytes (b :: rest)).step c copyProgram =
      .done { instruction := .read, read := some b }
        (mk (nextRead bytes + 1 : ℕ) (0 : ℕ) (firstCell c b) (loopsAfter bytes)
          ⟨rest, bytes.length + 1, bytes.toArray⟩) := by
  rw [copied, step_read_cons (instructionAt_nextRead bytes) (size_firstCell_pos c _),
    store_firstCell]

theorem step_copied_nil (c : Config) (bytes : List UInt8) :
    (copied c bytes []).step c copyProgram = match c.eof with
      | .error => .failed (.inputExhausted (nextRead bytes)) (copied c bytes [])
      | .zero => .done { instruction := .read }
        (mk (nextRead bytes + 1 : ℕ) (0 : ℕ) (firstCell c 0) (loopsAfter bytes)
          ⟨[], bytes.length, bytes.toArray⟩)
      | .unchanged => .done { instruction := .read }
        (mk (nextRead bytes + 1 : ℕ) (0 : ℕ) (firstCell c (bytes.getLast?.getD 0))
          (loopsAfter bytes) ⟨[], bytes.length, bytes.toArray⟩) := by
  have hs : (copied c bytes []).step c copyProgram = _ :=
    step_read_nil (instructionAt_nextRead bytes) (size_firstCell_pos c _)
  rw [store_firstCell] at hs
  exact hs

theorem passes_write (bytes : List UInt8) (hb : b ≠ 0) :
    Passes c copyProgram 0 5 2
      (mk (nextRead bytes + 1 : ℕ) (0 : ℕ) (firstCell c b) (loopsAfter bytes) port)
      (mk (3 : ℕ) (0 : ℕ) (firstCell c b) ⟨[(1, 4)]⟩ (port.put b)) := by
  have hbracket : Passes c copyProgram 0 5 1
      (mk (nextRead bytes + 1 : ℕ) (0 : ℕ) (firstCell c b) (loopsAfter bytes) port) _ :=
    passes_bracket bytes (size_firstCell_pos c b)
  have hs : (mk (2 : ℕ) (0 : ℕ) (firstCell c b) ⟨[(1, 4)]⟩ port).step c copyProgram = _ :=
    step_write rfl (size_firstCell_pos c b)
  rw [read_firstCell, if_neg hb] at hbracket
  rw [read_firstCell] at hs
  exact hbracket.trans (.single (by decide) (by decide) hs)

theorem passes_byte (hb : b ≠ 0) : Passes c copyProgram 0 5 3 (copied c bytes (b :: rest))
    (copied c (bytes ++ [b]) rest) := by
  have hread := Passes.single (Nat.zero_le _) (nextRead_lt bytes)
    (step_copied_cons (b := b) c bytes rest)
  have hbehind : copied c (bytes ++ [b]) rest = mk (3 : ℕ) (0 : ℕ) (firstCell c b) ⟨[(1, 4)]⟩
      (Port.put ⟨rest, bytes.length + 1, bytes.toArray⟩ b) := by
    simp [copied, nextRead, loopsAfter, Port.put]
  rw [hbehind]
  exact hread.trans (passes_write bytes hb)

theorem passes_bytes (bytes more rest : List UInt8) (hb : ∀ b ∈ more, b ≠ 0) :
    Passes c copyProgram 0 5 (3 * more.length) (copied c bytes (more ++ rest))
      (copied c (bytes ++ more) rest) := by
  induction more generalizing bytes with
  | nil =>
    rw [List.append_nil]
    exact .refl _
  | cons b more ih =>
    have hmore := ih (bytes ++ [b]) fun d hd => hb d (List.mem_cons_of_mem b hd)
    rw [List.append_assoc] at hmore
    rw [List.length_cons, Nat.mul_succ, Nat.add_comm]
    exact (passes_byte (hb b List.mem_cons_self)).trans hmore

theorem passes_zero {e : Effect}
    (hs : (copied c bytes rest).step c copyProgram = .done e
      (mk (nextRead bytes + 1 : ℕ) (0 : ℕ) (firstCell c 0) (loopsAfter bytes) port)) :
    Passes c copyProgram 0 5 2 (copied c bytes rest)
      (mk (5 : ℕ) (0 : ℕ) (firstCell c 0) ⟨[(1, 4)]⟩ port) := by
  have hbracket : Passes c copyProgram 0 5 1
      (mk (nextRead bytes + 1 : ℕ) (0 : ℕ) (firstCell c 0) (loopsAfter bytes) port) _ :=
    passes_bracket bytes (size_firstCell_pos c 0)
  rw [read_firstCell, if_pos rfl] at hbracket
  exact (Passes.single (Nat.zero_le _) (nextRead_lt bytes) hs).trans hbracket

/-- At the end of an input that was copied as a whole, a read that leaves the cell alone only has
the last byte written once more. -/
theorem passes_again (hu : c.eof = .unchanged) (hb : bytes.getLast?.getD 0 ≠ 0) :
    ∃ m, Passes c copyProgram 0 5 3 (copied c bytes []) m ∧
      outlook.machine m = outlook.machine (copied c bytes []) := by
  have hs := step_copied_nil c bytes
  have hne : bytes ≠ [] := fun h => hb (by rw [h]; rfl)
  rw [hu] at hs
  have hread := Passes.single (Nat.zero_le _) (nextRead_lt bytes) hs
  refine ⟨_, hread.trans (passes_write bytes hb), ?_⟩
  simp only [outlook, copied, nextRead, if_neg hne, Port.put]

end Machine

/-- What a run leaves that has copied its input up to the first zero byte: each copied byte takes
three steps. -/
structure Run.HasCopied (input : List UInt8) (r : Run) : Prop where
  steps : r.tally.steps = 2 + 3 * (beforeZero input).length
  written : r.machine.port.written.toList = beforeZero input
  bytesWritten : r.tally.bytesWritten = (beforeZero input).length
  bytesRead : r.tally.bytesRead = (beforeZero input).length + if 0 ∈ input then 1 else 0
  cell : r.machine.tape.read 0 = 0

def Copies (c : Config) (input : List UInt8) : Prop :=
  ∃ r, (Run.start c input).forward c copyProgram (3 + 3 * (beforeZero input).length) = .halted r ∧
    r.HasCopied input

namespace Run

variable {c : Config} {input rest : List UInt8} {port : Port} {n : ℕ} {m : Machine}

theorem exists_forward_of_passes (hc : c.maxSteps = none)
    (h : Machine.Passes c copyProgram 0 5 n (.start c input) m) :
    ∃ r, (Run.start c input).forward c copyProgram n = .running r ∧ r.machine = m ∧
      r.tally.steps = n ∧ r.tally.bytesWritten = m.port.written.size ∧
      r.tally.bytesRead = m.port.consumed := by
  obtain ⟨t, ht⟩ := h.forward hc (Nat.le_refl 5) {}
  have hacc := accounted c copyProgram input n
  have hr : (Run.start c input).forward c copyProgram n = .running ⟨m, t⟩ := ht
  rw [hr] at hacc
  refine ⟨⟨m, t⟩, hr, rfl, ?_, ?_, ?_⟩
  · rw [← copyProgram.forward_interpreter] at hr
    exact (Interpreter.steps_of_running hr).trans (Nat.zero_add n)
  · rw [show t.bytesWritten = (bytesOut _).length from hacc.bytesWritten, ← hacc.out,
      Array.length_toList]
    rfl
  · exact hacc.bytesRead.trans hacc.consumed.symm

theorem exists_forward_copied (hc : c.maxSteps = none) (hz : 0 ∉ input) :
    ∃ t, (Run.start c input).forward c copyProgram (3 * input.length) =
      .running ⟨.copied c input [], t⟩ := by
  have hbytes := Machine.passes_bytes (c := c) [] input [] fun b hb h0 => hz (h0 ▸ hb)
  rw [← Machine.start_eq_copied, List.append_nil, List.nil_append] at hbytes
  exact hbytes.forward hc (Nat.le_refl 5) {}

theorem copies_of_step {e : Effect} (hc : c.maxSteps = none)
    (hinput : input = beforeZero input ++ rest)
    (hport : port.written = (beforeZero input).toArray)
    (hconsumed : port.consumed = (beforeZero input).length + if 0 ∈ input then 1 else 0)
    (hs : (Machine.copied c (beforeZero input) rest).step c copyProgram = .done e
      (.mk (nextRead (beforeZero input) + 1 : ℕ) (0 : ℕ) (firstCell c 0)
        (loopsAfter (beforeZero input)) port)) :
    Copies c input := by
  have hbytes := Machine.passes_bytes (c := c) [] (beforeZero input) rest
    fun b => ne_zero_of_mem_beforeZero
  rw [← Machine.start_eq_copied, ← hinput, List.nil_append] at hbytes
  obtain ⟨r, hr, hm, hsteps, hout, hin⟩ :=
    exists_forward_of_passes hc (hbytes.trans (Machine.passes_zero hs))
  refine ⟨r, ?_, ?_, ?_, ?_, ?_, ?_⟩
  · -- the end is noticed in a turn of its own
    have hh : r.machine.hasHalted copyProgram = true := by
      rw [hm]
      rfl
    rw [← copyProgram.forward_interpreter] at hr ⊢
    rw [show 3 + 3 * (beforeZero input).length = 3 * (beforeZero input).length + 2 + 1 by omega,
      Interpreter.forward_succ_of_running hr]
    exact Interpreter.turn_of_halted hh
  · rw [hsteps, Nat.add_comm]
  · rw [hm]
    exact congrArg Array.toList hport
  · rw [hout]
    exact (congrArg Array.size hport).trans List.size_toArray
  · rw [hin, ← hconsumed]
  · rw [hm]
    exact read_firstCell c 0

theorem copies_of_mem (hc : c.maxSteps = none) (h : 0 ∈ input) : Copies c input := by
  obtain ⟨rest, hinput⟩ := exists_eq_beforeZero h
  exact copies_of_step hc hinput rfl (by rw [if_pos h])
    (Machine.step_copied_cons c (beforeZero input) rest)

theorem copies_of_not_mem (hc : c.maxSteps = none) (h : 0 ∉ input)
    (heof : c.eof = .zero ∨ c.eof = .unchanged ∧ input = []) : Copies c input := by
  have hcopied := beforeZero_of_not_mem h
  have hinput : input = beforeZero input ++ [] := by rw [List.append_nil, hcopied]
  have hs := Machine.step_copied_nil c (beforeZero input)
  have hconsumed : (beforeZero input).length = (beforeZero input).length +
      if 0 ∈ input then 1 else 0 := by rw [if_neg h, Nat.add_zero]
  obtain heof | ⟨heof, rfl⟩ := heof
  · rw [heof] at hs
    exact copies_of_step hc hinput rfl hconsumed hs
  · rw [heof] at hs
    exact copies_of_step hc hinput rfl hconsumed hs

theorem exists_failed_of_error (hc : c.maxSteps = none) (he : c.eof = .error) (hz : 0 ∉ input) :
    ∃ r, (Run.start c input).forward c copyProgram (1 + 3 * input.length) =
      .failed (.inputExhausted (nextRead input)) r ∧ r.machine.port.written.toList = input := by
  obtain ⟨t, ht⟩ := exists_forward_copied hc hz
  have hs := Machine.step_copied_nil c input
  rw [he] at hs
  refine ⟨⟨.copied c input [], t⟩, ?_, rfl⟩
  have hh : (Machine.copied c input []).hasHalted copyProgram = false := by
    have hlt := nextRead_lt input
    rw [Machine.hasHalted, decide_eq_false_iff_not]
    exact Int.not_le.2 (Int.ofNat_lt.2 hlt)
  have hl : c.limitReached? t.steps = none := by simp only [Config.limitReached?, hc]
  rw [← copyProgram.forward_interpreter] at ht ⊢
  rw [Nat.add_comm, Interpreter.forward_succ_of_running ht]
  exact Interpreter.turn_of_failed (r := ⟨.copied c input [], t⟩) hh hl hs

/-- A copy of an input without zeros never ends if at the end of the input the cell is left alone,
but for an empty input. -/
theorem exists_running_of_unchanged (hc : c.maxSteps = none) (hu : c.eof = .unchanged)
    (hne : input ≠ []) (hz : 0 ∉ input) (n : ℕ) :
    ∃ r, (Run.start c input).forward c copyProgram n = .running r := by
  have hb : input.getLast?.getD 0 ≠ 0 := by
    rw [List.getLast?_eq_some_getLast hne, Option.getD_some]
    exact fun h => hz (h ▸ List.getLast_mem hne)
  obtain ⟨m, hm, heq⟩ := Machine.passes_again hu hb
  obtain ⟨t, ht⟩ := exists_forward_copied hc hz
  obtain ⟨t', ht'⟩ := hm.forward hc (Nat.le_refl 5) t
  exact exists_running_of_recurrence hc (by decide) ht ht' heq n

/-- The copy program writes the bytes before the first zero and then halts, if there is a zero or
if the end of the input puts one into the cell. Otherwise it fails at the end of the input, or
never ends. -/
theorem copyProgram_copies (c : Config) (input : List UInt8) :
    let free := c.withLimit none
    let start := Run.start free input
    match c.eof with
    | .zero => Copies free input
    | .unchanged =>
      if input = [] ∨ 0 ∈ input then Copies free input
      else (∀ n, ∃ r, start.forward free copyProgram n = .running r) ∧
        ∀ n, let cut := c.withLimit (some n)
          ∃ r, (Run.start cut input).forward cut copyProgram (n + 1) = .failed (.stepLimit n) r
    | .error =>
      if 0 ∈ input then Copies free input
      else ∃ r, start.forward free copyProgram (1 + 3 * input.length) =
        .failed (.inputExhausted (nextRead input)) r ∧ r.machine.port.written.toList = input := by
  intro free start
  cases he : c.eof with
  | zero =>
    dsimp only
    by_cases hz : 0 ∈ input
    · exact copies_of_mem rfl hz
    · exact copies_of_not_mem rfl hz (.inl he)
  | unchanged =>
    dsimp only
    split_ifs with h
    · by_cases hz : 0 ∈ input
      · exact copies_of_mem rfl hz
      · exact copies_of_not_mem rfl hz (.inr ⟨he, h.resolve_right hz⟩)
    · obtain ⟨hne, hz⟩ := not_or.1 h
      have hrun := exists_running_of_unchanged (c := free) rfl he hne hz
      exact ⟨hrun, exists_stepLimit_of_endless (c := free) rfl hrun⟩
  | error =>
    dsimp only
    split_ifs with hz
    · exact copies_of_mem rfl hz
    · exact exists_failed_of_error rfl he hz

end Run

end TapeMachine
