import TapeMachine.Proofs.Consumption
import TapeMachine.Proofs.Replay

namespace TapeMachine

def Config.withEof (c : Config) (eof : EofPolicy) : Config := { c with eof }

def Run.starved (es : List Executed) : ℕ := es.countP fun a => a.effect.isStarved

/-- A read that found no byte as if it had found a zero. -/
def Effect.fed (e : Effect) : Effect := if e.isStarved then { e with read := some 0 } else e

/-- A port as it is when its input is followed by `n` zeros, `k` of which have been read. -/
def Port.zeroFed (n k : ℕ) (q : Port) : Port where
  unread := q.unread ++ List.replicate (n - k) 0
  consumed := q.consumed + k
  written := q.written

def zeroFed (n k : ℕ) : Reading where
  machine := (onPort (Port.zeroFed n k)).machine
  tally t := { t with bytesRead := t.bytesRead + k }

theorem Effect.fed_of_not_starved {e : Effect} (h : e.isStarved = false) : e.fed = e := by
  simp only [fed, h, Bool.false_eq_true, if_false]

theorem record_zeroFed (n k : ℕ) (t : Tally) (e : Effect) :
    ((zeroFed n k).tally t).record e.fed =
      (zeroFed n (k + e.isStarved.toNat)).tally (t.record e) := by
  cases h : e.isStarved with
  | false =>
    rw [Effect.fed_of_not_starved h]
    simp only [zeroFed, Tally.record, Bool.toNat_false, Nat.add_zero, Nat.add_right_comm]
  | true =>
    have hread : e.read = none := by
      simp only [Effect.isStarved, Bool.decide_and, Bool.and_eq_true, decide_eq_true_eq] at h
      exact h.2
    simp only [Effect.fed, h, if_true, zeroFed, Tally.record, hread, Bool.toNat_true,
      Option.isSome_some, Option.isSome_none, Bool.false_eq_true, if_false, Nat.add_zero,
      Nat.add_assoc]

namespace Machine

variable {c d : Config} {p : Program} {m m' : Machine} {e : Effect} {f : Fault} {n k : ℕ}

/-- What is executed on the bare input is executed on the longer one, as long as there is a zero for
each read that finds no byte. -/
theorem step_zeroFed_of_done (hz : c.eof = .zero) (hb : d.bounds = c.bounds)
    (hs : m.step c p = .done e m') (hk : k + e.isStarved.toNat ≤ n) :
    ((zeroFed n k).machine m).step d p =
      .done e.fed ((zeroFed n (k + e.isStarved.toNat)).machine m') := by
  by_cases hi : p.instructionAt m.ip = .ok .read
  · cases hc : m.cell c with
    | error f => cases (step_read_of_error hi hc).symm.trans hs
    | ok i =>
      have hc' : ((zeroFed n k).machine m).cell d = .ok i := (cell_onPort hb _).trans hc
      cases hu : m.port.unread with
      | nil =>
        have hstep := step_read_of_nil hi hc hu
        rw [hz, hs] at hstep
        cases hstep
        -- one more zero is read instead
        have hzeros : n - k = n - (k + 1) + 1 := by
          have : k + 1 ≤ n := hk
          omega
        have hu' : ((zeroFed n k).machine m).port.unread = 0 :: List.replicate (n - (k + 1)) 0 := by
          simp only [zeroFed, onPort, Port.zeroFed, hu, List.nil_append, hzeros,
            List.replicate_succ]
        rw [step_read_of_cons (m := (zeroFed n k).machine m) hi hc' hu']
        simp only [zeroFed, onPort, Port.zeroFed, advance, store, covered, hu, Effect.fed,
          Effect.isStarved, Nat.add_assoc]
        rfl
      | cons b rest =>
        have hstep := step_read_of_cons hi hc hu
        rw [hs] at hstep
        cases hstep
        have hu' : ((zeroFed n k).machine m).port.unread =
            b :: (rest ++ List.replicate (n - k) 0) := by
          simp only [zeroFed, onPort, Port.zeroFed, hu, List.cons_append]
        have he : Effect.isStarved { instruction := .read, read := some b } = false := rfl
        rw [step_read_of_cons (m := (zeroFed n k).machine m) hi hc' hu',
          Effect.fed_of_not_starved he, he]
        simp only [zeroFed, onPort, Port.zeroFed, advance, store, covered, Bool.toNat_false,
          Nat.add_zero, Nat.add_right_comm]
  · have he : e.isStarved = false := by
      have hk := (moves_of_step hs).instructionAt
      have hne : e.instruction ≠ .read := fun h => hi (h ▸ hk)
      simp [Effect.isStarved, hne]
    rw [Effect.fed_of_not_starved he, he]
    exact (step_onPort (g := .zeroFed n k) hb (fun _ _ => rfl) hi).trans (by rw [hs]; rfl)

theorem step_zeroFed_of_failed (hz : c.eof = .zero) (hb : d.bounds = c.bounds)
    (hs : m.step c p = .failed f m') :
    ((zeroFed n k).machine m).step d p = .failed f ((zeroFed n k).machine m') := by
  by_cases hi : p.instructionAt m.ip = .ok .read
  · cases hc : m.cell c with
    | error g =>
      have hc' : ((zeroFed n k).machine m).cell d = .error g := (cell_onPort hb _).trans hc
      rw [step_read_of_error hi hc] at hs
      cases hs
      exact step_read_of_error (m := (zeroFed n k).machine m) hi hc'
    | ok i =>
      cases hu : m.port.unread with
      | nil =>
        have hstep := step_read_of_nil hi hc hu
        rw [hz, hs] at hstep
        cases hstep
      | cons b rest => cases (step_read_of_cons hi hc hu).symm.trans hs
  · exact (step_onPort (g := .zeroFed n k) hb (fun _ _ => rfl) hi).trans (by rw [hs]; rfl)

end Machine

variable {c d : Config} {p : Program} {input : List UInt8} {n k : ℕ}

theorem Run.starved_append (es fs : List Executed) : starved (es ++ fs) = starved es + starved fs :=
  List.countP_append

theorem Run.starved_singleton (a : Executed) : starved [a] = a.effect.isStarved.toNat := by
  rw [starved, List.countP_singleton]
  cases a.effect.isStarved <;> rfl

theorem turn_zeroFed (hz : c.eof = .zero) (hb : d.bounds = c.bounds) (hl : d.maxSteps = c.maxSteps)
    (p : Program) (q : Run)
    (hk : k + Run.starved ((p.interpreter c).next? q).toList ≤ n) :
    (p.interpreter d).turn ((zeroFed n k).run q) =
      (zeroFed n (k + Run.starved ((p.interpreter c).next? q).toList)).progress
        ((p.interpreter c).turn q) ∧
    ((p.interpreter d).next? ((zeroFed n k).run q)).map Executed.effect =
      ((p.interpreter c).next? q).map fun a => a.effect.fed := by
  have limit : (p.interpreter d).limitReached? q.tally.steps =
      (p.interpreter c).limitReached? q.tally.steps := Config.limitReached?_eq hl _
  obtain ⟨hh, hx⟩ | ⟨hh, l, hlim, hx⟩ | ⟨hh, hlim, e, m, hs, hx⟩ | ⟨hh, hlim, f, m, hs, hx⟩ :=
    (p.interpreter c).turn_cases q
  · have hy := Interpreter.turn_of_halted (x := p.interpreter d) (r := (zeroFed n k).run q) hh
    rw [Interpreter.next?_of_ended (x := p.interpreter c) (by simp [hx]),
      Interpreter.next?_of_ended (x := p.interpreter d) (by simp [hy]), hx, hy]
    exact ⟨rfl, rfl⟩
  · have hy := Interpreter.turn_of_limit (x := p.interpreter d) (r := (zeroFed n k).run q) hh
      (limit.trans hlim)
    rw [Interpreter.next?_of_ended (x := p.interpreter c) (by simp [hx]),
      Interpreter.next?_of_ended (x := p.interpreter d) (by simp [hy]), hx, hy]
    exact ⟨rfl, rfl⟩
  · have hnext := Interpreter.next?_of_done hx hs
    rw [hnext, Option.toList_some, Run.starved_singleton] at hk ⊢
    -- one more of the zeros is used up if the instruction found no byte
    have hstep := Machine.step_zeroFed_of_done hz hb hs hk
    have hy := Interpreter.turn_of_done (x := p.interpreter d) (r := (zeroFed n k).run q) hh
      (limit.trans hlim) hstep
    rw [Interpreter.next?_of_done hy hstep, hx, hy]
    refine ⟨?_, rfl⟩
    simp only [Reading.progress, Reading.run, record_zeroFed]
  · have hstep := Machine.step_zeroFed_of_failed (n := n) (k := k) hz hb hs
    have hy := Interpreter.turn_of_failed (x := p.interpreter d) (r := (zeroFed n k).run q) hh
      (limit.trans hlim) hstep
    rw [Interpreter.next?_of_ended (x := p.interpreter c) (by simp [hx]),
      Interpreter.next?_of_ended (x := p.interpreter d) (by simp [hy]), hx, hy]
    exact ⟨rfl, rfl⟩

theorem interpreter_forward_zeroFed (hz : c.eof = .zero) (hb : d.bounds = c.bounds)
    (hl : d.maxSteps = c.maxSteps) (p : Program) (r : Run) (j : ℕ)
    (hn : Run.starved ((p.interpreter c).history r j) ≤ n) :
    (p.interpreter d).forward ((zeroFed n 0).run r) j =
      (zeroFed n (Run.starved ((p.interpreter c).history r j))).progress
        ((p.interpreter c).forward r j) ∧
    ((p.interpreter d).history ((zeroFed n 0).run r) j).map Executed.effect =
      ((p.interpreter c).history r j).map fun a => a.effect.fed := by
  induction j with
  | zero => exact ⟨rfl, rfl⟩
  | succ j ih =>
    cases hj : (p.interpreter c).forward r j with
    | running q =>
      rw [Interpreter.history_succ_of_running hj, Run.starved_append] at hn ⊢
      obtain ⟨hforward, hhistory⟩ := ih (by omega)
      rw [hj] at hforward
      obtain ⟨hturn, hnext⟩ := turn_zeroFed hz hb hl p q hn
      rw [Interpreter.forward_succ_of_running hforward, Interpreter.forward_succ_of_running hj,
        Interpreter.history_succ_of_running hforward, List.map_append, List.map_append, hhistory]
      refine ⟨hturn, ?_⟩
      rw [← Option.toList_map, hnext, Option.toList_map]
    | halted q | failed f q =>
      -- neither run executes anything more
      have hend : ∀ s, (p.interpreter c).forward r j ≠ .running s := by simp [hj]
      rw [Interpreter.history_succ_of_ended hend] at hn ⊢
      obtain ⟨hforward, hhistory⟩ := ih hn
      rw [hj] at hforward
      have hend' : ∀ s, (p.interpreter d).forward ((zeroFed n 0).run r) j ≠ .running s := by
        simp [hforward, Reading.progress]
      rw [Interpreter.forward_succ_of_ended hend', Interpreter.forward_succ_of_ended hend,
        Interpreter.history_succ_of_ended hend', hforward, hj]
      exact ⟨rfl, hhistory⟩

/-- To answer reads at the end of the input with zero is to have zeros there: behind an input that
is followed by at least as many zeros as there were such reads, a run under any policy is the same
run. Only the reads have a byte each, which is counted and consumed. -/
theorem forward_zeroFed (c : Config) (eof : EofPolicy) (p : Program) (input : List UInt8)
    (j n : ℕ) :
    let bare := c.withEof .zero
    let fed := c.withEof eof
    let history (j : ℕ) := (Run.start bare input).history bare p j
    let long := input ++ List.replicate n 0
    Run.starved (history j) ≤ n → ∀ i ≤ j,
      (Run.start fed long).forward fed p i =
        (zeroFed n (Run.starved (history i))).progress ((Run.start bare input).forward bare p i) ∧
      ((Run.start fed long).history fed p i).map Executed.effect =
        (history i).map fun a => a.effect.fed := by
  intro bare fed history long hn i hi
  have hle : Run.starved (history i) ≤ Run.starved (history j) :=
    ((p.interpreter bare).history_isPrefix (.start bare input) hi).sublist.countP_le
  have hf := interpreter_forward_zeroFed (c := bare) (d := fed) rfl rfl rfl p (.start bare input) i
    (Nat.le_trans hle hn)
  rwa [p.forward_interpreter, p.forward_interpreter] at hf

theorem zeroFed_three_reads :
    let c : Config := { memorySize := 1 }
    let bare := c.withEof .zero
    let fed := c.withEof .error
    let p := Program.ofList [',', '+', '[', '.', ',', ']', ',', '.']
    let history := (Run.start bare []).history bare p 9
    let r := ((Run.start bare []).forward bare p 9).run
    (Run.starved history = 3 ∧ Run.starved history ≤ 4) ∧
      (Run.start bare []).forward bare p 9 = .halted r ∧ r.machine.port.consumed = 0 ∧
      (Run.start fed [0, 0, 0, 0]).forward fed p 9 = .halted ((zeroFed 4 3).run r) ∧
      ((Run.start fed [0, 0, 0, 0]).history fed p 9).map Executed.effect =
        history.map fun a => a.effect.fed := by
  intro c bare fed p history r
  have hn : Run.starved history = 3 := by decide
  have hle : Run.starved history ≤ 4 := by decide
  have hr : (Run.start bare []).forward bare p 9 = .halted r := by decide
  obtain ⟨hforward, hhistory⟩ := forward_zeroFed c .error p [] 9 4 hle 9 (Nat.le_refl 9)
  refine ⟨⟨hn, hle⟩, hr, by decide, ?_, hhistory⟩
  calc (Run.start fed [0, 0, 0, 0]).forward fed p 9
      = (zeroFed 4 (Run.starved history)).progress ((Run.start bare []).forward bare p 9) := hforward
    _ = .halted ((zeroFed 4 3).run r) := by rw [hn, hr]; rfl

end TapeMachine
