import TapeMachine.Proofs.EndOfInput

namespace TapeMachine

theorem Tally.bytesRead_record (t : Tally) (e : Effect) :
    (t.record e).bytesRead = t.bytesRead + e.read.toList.length := by
  cases h : e.read <;> simp [record, h]

theorem Tally.bytesWritten_record (t : Tally) (e : Effect) :
    (t.record e).bytesWritten = t.bytesWritten + e.written.toList.length := by
  cases h : e.written <;> simp [record, h]

namespace Machine

variable {c : Config} {p : Program} {m m' : Machine} {e : Effect}

/-- A byte goes out with every write, and nowhere else. A byte comes in with every read that is not
starved, and nowhere else. -/
theorem transfers_of_step (hs : m.step c p = .done e m') :
    e.written.toList.length = (if e.instruction = .write then 1 else 0) ∧
    e.read.toList.length + e.isStarved.toNat = if e.instruction = .read then 1 else 0 := by
  obtain ⟨k, -, h⟩ := exists_perform_of_step_done hs
  cases k with
  | moveRight | moveLeft =>
    cases h
    exact ⟨rfl, rfl⟩
  | increment | decrement | write =>
    simp only [perform, atCell_eq_done] at h
    obtain ⟨i, -, h⟩ := h
    cases h
    exact ⟨rfl, rfl⟩
  | read =>
    simp only [perform, atCell_eq_done] at h
    obtain ⟨i, -, h⟩ := h
    split at h
    · cases h
      exact ⟨rfl, rfl⟩
    · split at h <;> cases h <;> exact ⟨rfl, rfl⟩
  | openLoop =>
    simp only [perform] at h
    split at h
    · cases h
    · obtain ⟨i, -, h⟩ := atCell_eq_done.1 h
      dsimp only at h
      split at h <;> cases h <;> exact ⟨rfl, rfl⟩
  | closeLoop =>
    simp only [perform, atCell_eq_done] at h
    obtain ⟨i, -, h⟩ := h
    split at h
    · cases h
      exact ⟨rfl, rfl⟩
    · split at h <;> cases h
      exact ⟨rfl, rfl⟩

theorem isStarved_iff_of_step (hs : m.step c p = .done e m') :
    e.isStarved = true ↔ e.instruction = .read ∧ m.port.unread = [] := by
  have hacts := acts_of_step hs
  simp only [Effect.isStarved, Bool.decide_and, Bool.and_eq_true, decide_eq_true_eq]
  refine and_congr_right fun hi => ⟨fun hr => (hacts.starved hi hr).1, fun hu => ?_⟩
  have hread := hacts.unread
  rw [hu, eq_comm, List.append_eq_nil_iff] at hread
  exact Option.toList_eq_nil_iff.1 hread.1

end Machine

namespace Run

def bytesOut (es : List Executed) : List UInt8 := es.filterMap fun a => a.effect.written

def bytesIn (es : List Executed) : List UInt8 := es.filterMap fun a => a.effect.read

theorem bytesOut_append (es : List Executed) (a : Executed) :
    bytesOut (es ++ [a]) = bytesOut es ++ a.effect.written.toList := by
  cases h : a.effect.written <;> simp [bytesOut, List.filterMap_append, h]

theorem bytesIn_append (es : List Executed) (a : Executed) :
    bytesIn (es ++ [a]) = bytesIn es ++ a.effect.read.toList := by
  cases h : a.effect.read <;> simp [bytesIn, List.filterMap_append, h]

structure Accounted (input : List UInt8) (r : Run) (es : List Executed) : Prop where
  out : r.machine.port.written.toList = bytesOut es
  rest : input = bytesIn es ++ r.machine.port.unread
  consumed : r.machine.port.consumed = (bytesIn es).length
  steps : r.tally.steps = es.length
  bytesRead : r.tally.bytesRead = (bytesIn es).length
  bytesWritten : r.tally.bytesWritten = (bytesOut es).length
  writes : (bytesOut es).length = count .write es
  reads : (bytesIn es).length + starved es = count .read es
  starved : 0 < starved es → r.machine.port.unread = []

namespace Accounted

variable {c : Config} {p : Program} {input : List UInt8} {r : Run} {es : List Executed}
  {m : Machine} {e : Effect}

theorem start (c : Config) (input : List UInt8) : (Run.start c input).Accounted input [] where
  out := rfl
  rest := rfl
  consumed := rfl
  steps := rfl
  bytesRead := rfl
  bytesWritten := rfl
  writes := rfl
  reads := rfl
  starved h := absurd h (Nat.lt_irrefl 0)

theorem done (h : r.Accounted input es) (hs : r.machine.step c p = .done e m) :
    (⟨m, r.tally.record e⟩ : Run).Accounted input (es ++ [⟨r.machine, e⟩]) := by
  have hacts := Machine.acts_of_step hs
  obtain ⟨hwrite, hread⟩ := Machine.transfers_of_step hs
  have hout := bytesOut_append es ⟨r.machine, e⟩
  have hin := bytesIn_append es ⟨r.machine, e⟩
  have hin' : (bytesIn (es ++ [⟨r.machine, e⟩])).length =
      (bytesIn es).length + e.read.toList.length := by rw [hin, List.length_append]
  have hout' : (bytesOut (es ++ [⟨r.machine, e⟩])).length =
      (bytesOut es).length + e.written.toList.length := by rw [hout, List.length_append]
  refine ⟨?_, ?_, ?_, ?_, ?_, ?_, ?_, ?_, ?_⟩
  · rw [hout, hacts.written, h.out]
  · rw [hin, List.append_assoc, ← hacts.unread]
    exact h.rest
  · rw [hin', ← h.consumed]
    exact hacts.consumed
  · rw [List.length_append, ← h.steps]
    rfl
  · rw [hin', ← h.bytesRead]
    exact Tally.bytesRead_record r.tally e
  · rw [hout', ← h.bytesWritten]
    exact Tally.bytesWritten_record r.tally e
  · rw [hout', count_append, h.writes, hwrite]
  · rw [hin', count_append, starved_append, starved_singleton, ← h.reads]
    dsimp only
    omega
  · intro hpos
    -- once the input is used up it stays so
    have hunread : r.machine.port.unread = [] := by
      cases hst : e.isStarved with
      | true => exact ((Machine.isStarved_iff_of_step hs).1 hst).2
      | false =>
        rw [starved_append, starved_singleton, hst] at hpos
        exact h.starved hpos
    have hrest := hacts.unread
    rw [hunread, eq_comm, List.append_eq_nil_iff] at hrest
    exact hrest.2

theorem failed (h : r.Accounted input es) {f : Fault} (hs : r.machine.step c p = .failed f m) :
    (⟨m, r.tally⟩ : Run).Accounted input es := by
  have hport := (Machine.fails_of_step hs).port_eq
  exact ⟨hport ▸ h.out, hport ▸ h.rest, hport ▸ h.consumed, h.steps, h.bytesRead, h.bytesWritten,
    h.writes, h.reads, hport ▸ h.starved⟩

theorem consumed_eq (h : r.Accounted input es) :
    r.machine.port.consumed = min input.length (count .read es) := by
  have hlen := congrArg List.length h.rest
  have hreads := h.reads
  have hconsumed := h.consumed
  rw [List.length_append] at hlen
  by_cases hs : 0 < Run.starved es
  · -- a read that found no byte has left none behind
    rw [h.starved hs, List.length_nil] at hlen
    omega
  · omega

end Accounted

theorem accounted (c : Config) (p : Program) (input : List UInt8) (n : ℕ) :
    ((Run.start c input).forward c p n).run.Accounted input
      ((Run.start c input).history c p n) := by
  rw [← p.forward_interpreter]
  exact Interpreter.history_induction (I := Accounted input) (.start c input)
    (fun _ _ _ _ h _ hs => h.done hs) (fun _ _ _ _ h _ hs => h.failed hs) n

theorem starved_eq_zero_iff (c : Config) (p : Program) (r : Run) (n : ℕ) :
    starved (r.history c p n) = 0 ↔ ∀ a ∈ r.history c p n, a.effect.instruction = .read →
      a.before.port.unread ≠ [] := by
  rw [starved, List.countP_eq_zero]
  refine forall₂_congr fun a ha => ?_
  obtain ⟨k, s, m, -, -, -, -, hs⟩ := Interpreter.exists_step_of_mem_history ha
  have hs : a.before.step c p = .done a.effect m := hs
  rw [Machine.isStarved_iff_of_step hs, not_and]

/-- No byte is lost, doubled or out of place, whether the run goes on, halts or fails: the output is
what the writes wrote, in order; what the reads got, in order, is the beginning of the input, one
byte for each read as long as there is one; and the tally counts the instructions and the bytes. It
counts fewer bytes in than reads exactly if one was executed at the end of the input. -/
theorem bytes_accounted (c : Config) (p : Program) (input : List UInt8) (n : ℕ) :
    let r := ((Run.start c input).forward c p n).run
    let port := r.machine.port
    let es := (Run.start c input).history c p n
    (∀ a ∈ es, p.instructionAt a.before.ip = .ok a.effect.instruction) ∧
    port.written.toList = bytesOut es ∧
    (bytesIn es = input.take port.consumed ∧
      port.consumed = min input.length (count .read es)) ∧
    r.tally.steps = es.length ∧
    (r.tally.bytesWritten = port.written.size ∧ r.tally.bytesWritten = count .write es) ∧
    r.tally.bytesRead = port.consumed ∧ r.tally.bytesRead ≤ count .read es ∧
    (r.tally.bytesRead = count .read es ↔
      ∀ a ∈ es, a.effect.instruction = .read → a.before.port.unread ≠ []) := by
  intro r port es
  have h : r.Accounted input es := accounted c p input n
  have hsize : (bytesOut es).length = port.written.size := by rw [← h.out, Array.length_toList]
  have hreads := h.reads
  refine ⟨fun _ => instructionAt_of_mem_history, h.out, ⟨?_, h.consumed_eq⟩, h.steps, ⟨?_, ?_⟩,
    ?_, ?_, ?_⟩
  · rw [h.consumed]
    calc bytesIn es = (bytesIn es ++ port.unread).take (bytesIn es).length := List.take_left.symm
      _ = input.take (bytesIn es).length := by rw [← h.rest]
  · rw [h.bytesWritten, hsize]
  · rw [h.bytesWritten, h.writes]
  · rw [h.bytesRead, h.consumed]
  · rw [h.bytesRead]
    omega
  · rw [← starved_eq_zero_iff c p, h.bytesRead, ← hreads]
    exact Nat.left_eq_add

-- a byte counts though it is zero, and a read at the end of the input does not count as a byte
example :
    let c : Config := { memorySize := 1, eof := .zero }
    let r := ((Run.start c [0]).forward c (.ofList [',', '.', ',', '.']) 5).run
    r.tally = { steps := 4, bytesRead := 1, bytesWritten := 2 } ∧
      r.machine.port.written = #[0, 0] ∧ r.machine.port.consumed = 1 := by decide

end Run

end TapeMachine
