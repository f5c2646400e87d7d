import TapeMachine.Proofs.EndOfInput

namespace TapeMachine

def Config.withBounds (c : Config) (bounds : BoundsPolicy) : Config := { c with bounds }

/-- `d` sets up the same machines as `c`, and what `d` answers otherwise, `c` does not answer at
all. -/
structure Config.Relaxes (d c : Config) : Prop where
  memorySize : d.memorySize = c.memorySize
  maxSteps : d.maxSteps = c.maxSteps
  bounds : d.bounds = c.bounds ∨ c.bounds = .error
  eof : d.eof = c.eof ∨ c.eof = .error

def Fault.isInputExhausted : Fault → Bool
  | inputExhausted _ => true
  | _ => false

/-- A fault under `c` for which `d` has an answer of its own. -/
def Fault.isWaived (d c : Config) : Fault → Bool
  | cellOutOfRange .. => d.bounds ≠ c.bounds
  | inputExhausted _ => d.eof ≠ c.eof
  | _ => false

theorem BoundsPolicy.cell_of_error {size i : ℕ} {pointer : Int}
    (h : error.cell size pointer = .ok i) (b : BoundsPolicy) : b.cell size pointer = .ok i := by
  unfold cell at h ⊢
  split at h
  · rename_i hin
    rw [if_pos hin]
    exact h
  · cases h

namespace Config.Relaxes

variable {c d : Config} {p : Program} {m : Machine} {i : ℕ} {f : Fault}

theorem cell_of_ok (h : d.Relaxes c) (hc : m.cell c = .ok i) : m.cell d = .ok i := by
  rw [Machine.cell_eq_ok] at hc ⊢
  obtain hb | hb := h.bounds
  · rwa [hb]
  · rw [hb] at hc
    exact BoundsPolicy.cell_of_error hc d.bounds

theorem cell_of_error (h : d.Relaxes c) (hc : m.cell c = .error f) (hf : f.isWaived d c = false) :
    m.cell d = .error f := by
  by_cases hb : d.bounds = c.bounds
  · simp only [Machine.cell, hb] at hc ⊢
    exact hc
  · obtain rfl | rfl := Machine.fault_of_cell hc
    · simp [Fault.isWaived, hb] at hf
    · -- only a circle can lack all cells
      have he := h.bounds.resolve_left hb
      simp only [Machine.cell, BoundsPolicy.cell, he] at hc
      split at hc <;> rename_i hc'
      · cases hc
      · cases hc
      · split at hc' <;> cases hc'

theorem atCell (h : d.Relaxes c) {act act' : ℕ → Machine → Step}
    (hact : ∀ i n, (∀ f n', act i n = .failed f n' → f.isWaived d c = false) → act' i n = act i n)
    (hf : ∀ f m', m.atCell c act = .failed f m' → f.isWaived d c = false) :
    m.atCell d act' = m.atCell c act := by
  unfold Machine.atCell at hf ⊢
  cases hc : m.cell c with
  | ok i =>
    simp only [hc, h.cell_of_ok hc] at hf ⊢
    exact hact i _ hf
  | error f =>
    simp only [hc] at hf
    simp only [h.cell_of_error hc (hf f m rfl)]

theorem perform (h : d.Relaxes c) {k : Instruction}
    (hf : ∀ f m', m.perform c p k = .failed f m' → f.isWaived d c = false) :
    m.perform d p k = m.perform c p k := by
  cases k with
  | moveRight | moveLeft => rfl
  | increment | decrement | write =>
    simp only [Machine.perform] at hf ⊢
    exact h.atCell (fun _ _ _ => rfl) hf
  | read =>
    simp only [Machine.perform] at hf ⊢
    refine h.atCell (fun i n hn => ?_) hf
    cases hp : n.port.take? with
    | some t => rfl
    | none =>
      simp only [hp] at hn
      by_cases he : d.eof = c.eof
      · rw [he]
      · have hc := h.eof.resolve_left he
        rw [hc] at hn
        simp [Fault.isWaived, he] at hn
  | openLoop =>
    simp only [Machine.perform] at hf ⊢
    cases hr : m.loops.resolve p m.ip with
    | error f => rfl
    | ok t =>
      rw [hr] at hf
      exact h.atCell (fun _ _ _ => rfl) hf
  | closeLoop =>
    simp only [Machine.perform] at hf ⊢
    exact h.atCell (fun _ _ _ => rfl) hf

/-- An instruction that does not fail at the stricter policy does not show the other one. -/
theorem step (h : d.Relaxes c)
    (hf : ∀ f m', m.step c p = .failed f m' → f.isWaived d c = false) :
    m.step d p = m.step c p := by
  cases hi : p.instructionAt m.ip with
  | error f => rw [Machine.step_of_error hi, Machine.step_of_error hi]
  | ok k =>
    rw [Machine.step_eq_perform hi] at hf ⊢
    rw [Machine.step_eq_perform hi]
    exact h.perform hf

theorem kept (h : d.Relaxes c) (p : Program) : Reading.same.Kept
    (fun r => ∀ f s, r.turn c p = .failed f s → f.isWaived d c = false)
    (p.interpreter c) (p.interpreter d) where
  hasHalted _ _ := rfl
  limit t := limitReached?_eq h.maxSteps t.steps
  record _ _ := rfl
  stepLimit _ := rfl
  step r hr hh hl := by
    rw [Reading.same_step]
    refine h.step fun f m hs => hr f ⟨m, r.tally⟩ ?_
    exact Interpreter.turn_of_failed (x := p.interpreter c) hh hl hs

theorem forward (h : d.Relaxes c) (p : Program) (input : List UInt8) {n : ℕ}
    (hf : ∀ f r, (Run.start c input).forward c p n = .failed f r → f.isWaived d c = false) :
    (Run.start d input).forward d p n = (Run.start c input).forward c p n ∧
    (Run.start d input).history d p n = (Run.start c input).history c p n := by
  have hstart : Run.start d input = Run.start c input := by
    simp only [Run.start, Machine.start, h.memorySize]
  obtain ⟨hforward, hhistory⟩ := (h.kept p).lockstep (r := .start c input) n
    fun k hk q hq f s ht => by
      -- a run that fails in an earlier turn has failed for good
      have hnext := Interpreter.forward_succ_of_running hq
      rw [p.turn_interpreter, ht] at hnext
      refine hf f s ?_
      rw [← p.forward_interpreter, Interpreter.forward_of_le_of_ended hk (by simp [hnext]), hnext]
  rw [Reading.same_progress, p.forward_interpreter, p.forward_interpreter] at hforward
  rw [hstart]
  exact ⟨hforward, hhistory.trans (List.map_id _)⟩

end Config.Relaxes

/-- Under `d` a run is what it is under `c`, unless it comes to a fault of some `kind` under `c`;
then it is the same up to the instruction that fails. -/
structure SameUntil (kind : Fault → Bool) (d c : Config) (p : Program) (input : List UInt8) :
    Prop where
  same : ∀ n, (∀ f r, (Run.start c input).forward c p n = .failed f r → kind f = false) →
    (Run.start d input).forward d p n = (Run.start c input).forward c p n ∧
    (Run.start d input).history d p n = (Run.start c input).history c p n
  before : ∀ n f r, (Run.start c input).forward c p n = .failed f r → kind f = true →
    ∃ k q, k < n ∧ (Run.start c input).forward c p k = .running q ∧ q.turn c p = .failed f r ∧
      ∀ j ≤ k, (Run.start d input).forward d p j = (Run.start c input).forward c p j ∧
        (Run.start d input).history d p j = (Run.start c input).history c p j

theorem Config.Relaxes.sameUntil {c d : Config} {kind : Fault → Bool} (h : d.Relaxes c)
    (hkind : ∀ f, kind f = false → f.isWaived d c = false) (p : Program) (input : List UInt8) :
    SameUntil kind d c p input where
  same n hn := h.forward p input fun f r hf => hkind f (hn f r hf)
  before n f r hf hk := by
    rw [← p.forward_interpreter] at hf
    obtain ⟨k, q, hkn, hq, ht, -⟩ := Interpreter.exists_running_of_failed hf
    -- up to the turn that fails, the run under `c` has no fault at all
    refine ⟨k, q, hkn, p.forward_interpreter c _ k ▸ hq, ht, fun j hj => ?_⟩
    obtain ⟨s, hs⟩ := Interpreter.exists_running_of_le hq hj
    rw [p.forward_interpreter] at hs
    exact h.forward p input fun g t hg => nomatch hs.symm.trans hg

/-- A policy shows only where the stricter one fails: if a run does not miss the tape, it is the
same on a circular and on a growing tape, and if it does not run out of input, it is the same with
whatever else is done at the end of the input. Otherwise it is so up to the instruction that fails.
-/
theorem forward_policies (c : Config) (p : Program) (input : List UInt8) :
    (∀ bounds,
      SameUntil Fault.isCellOutOfRange (c.withBounds bounds) (c.withBounds .error) p input) ∧
    ∀ eof, SameUntil Fault.isInputExhausted (c.withEof eof) (c.withEof .error) p input := by
  constructor
  · intro bounds
    have h : (c.withBounds bounds).Relaxes (c.withBounds .error) := ⟨rfl, rfl, .inr rfl, .inl rfl⟩
    refine h.sameUntil (fun f hf => ?_) p input
    cases f with
    | cellOutOfRange pointer size i => cases hf
    | inputExhausted i => exact decide_eq_false (not_not.2 rfl)
    | _ => rfl
  · intro eof
    have h : (c.withEof eof).Relaxes (c.withEof .error) := ⟨rfl, rfl, .inl rfl, .inr rfl⟩
    refine h.sameUntil (fun f hf => ?_) p input
    cases f with
    | cellOutOfRange pointer size i => exact decide_eq_false (not_not.2 rfl)
    | inputExhausted i => cases hf
    | _ => rfl

theorem policies_read_row :
    let c : Config := { memorySize := 2 }
    let p := Program.ofList [',', '[', '>', ',', ']']
    let run (d : Config) (w : List UInt8) (n : ℕ) := (Run.start d w).forward d p n
    let miss := Fault.cellOutOfRange 2 2 3
    let r := (run c [1, 1, 1] 9).run
    let s := (run c [1] 9).run
    (run c [1, 0] 6 = .halted (run c [1, 0] 6).run ∧
      run (c.withBounds .wrap) [1, 0] 6 = run c [1, 0] 6 ∧
      run (c.withEof .zero) [1, 0] 6 = run c [1, 0] 6) ∧
    (run c [1, 1, 1] 9 = .failed miss r ∧ ∃ k q, k < 9 ∧ run c [1, 1, 1] k = .running q ∧
      q.turn c p = .failed miss r ∧ run (c.withBounds .grow) [1, 1, 1] k = .running q) ∧
    run c [1] 9 = .failed (.inputExhausted 3) s ∧ ∃ k q, k < 9 ∧ run c [1] k = .running q ∧
      q.turn c p = .failed (.inputExhausted 3) s ∧
      run (c.withEof .unchanged) [1] k = .running q := by
  intro c p run miss r s
  have hhalt : run c [1, 0] 6 = .halted (run c [1, 0] 6).run := by decide
  have hmiss : run c [1, 1, 1] 9 = .failed miss r := by decide
  have hstarve : run c [1] 9 = .failed (.inputExhausted 3) s := by decide
  have hbounds (w : List UInt8) := (forward_policies c p w).1
  have heof (w : List UInt8) := (forward_policies c p w).2
  obtain ⟨k, q, hk, hq, ht, hsame⟩ := (hbounds [1, 1, 1] .grow).before 9 miss r hmiss rfl
  obtain ⟨l, t, hl, ht', hu, hsame'⟩ := (heof [1] .unchanged).before 9 _ s hstarve rfl
  refine ⟨⟨hhalt, ?_, ?_⟩, ⟨hmiss, k, q, hk, hq, ht, ?_⟩, hstarve, l, t, hl, ht', hu, ?_⟩
  · exact ((hbounds [1, 0] .wrap).same 6 fun f r h => nomatch hhalt.symm.trans h).1
  · exact ((heof [1, 0] .zero).same 6 fun f r h => nomatch hhalt.symm.trans h).1
  · exact (hsame k (Nat.le_refl k)).1.trans hq
  · exact (hsame' l (Nat.le_refl l)).1.trans ht'

end TapeMachine
