import TapeMachine.Proofs.Consumption

namespace TapeMachine

theorem drop_eq_cons_of_take_eq {w w' rest : List UInt8} {b : UInt8} {i k : ℕ} (hik : i < k)
    (h : w'.take k = w.take k) (hd : w.drop i = b :: rest) : w'.drop i = b :: w'.drop (i + 1) := by
  have hb : w'[i]? = some b := by
    rw [← List.getElem?_take_of_lt hik, h, List.getElem?_take_of_lt hik, ← List.head?_drop, hd]
    rfl
  obtain ⟨hlt, hb⟩ := List.getElem?_eq_some_iff.1 hb
  rw [List.drop_eq_getElem_cons hlt, hb]

/-- Reads what was consumed as the beginning of another input. -/
def refeed (input : List UInt8) : Reading :=
  onPort fun q => { q with unread := input.drop q.consumed }

theorem Machine.step_refeed {c : Config} {p : Program} {m : Machine} {w w' : List UInt8} {k : ℕ}
    (hsame : w'.take k = w.take k) (hu : m.port.unread = w.drop m.port.consumed)
    (hdone : ∀ e m', m.step c p = .done e m' → e.isStarved = false ∧ m'.port.consumed ≤ k)
    (hfailed : ∀ i m', m.step c p ≠ .failed (.inputExhausted i) m') :
    ((refeed w').machine m).step c p = (refeed w').step (m.step c p) := by
  by_cases hi : p.instructionAt m.ip = .ok .read
  · cases hc : m.cell c with
    | error f =>
      rw [step_read_of_error hi hc, step_read_of_error (m := (refeed w').machine m) hi hc]
      rfl
    | ok i =>
      cases hunread : m.port.unread with
      | nil =>
        -- a read that finds no byte is not executed, nor does the run fail at it
        have hs := step_read_of_nil hi hc hunread
        cases he : c.eof <;> rw [he] at hs
        · exact absurd hs (hfailed _ _)
        · cases (hdone _ _ hs).1
        · cases (hdone _ _ hs).1
      | cons b rest =>
        have hs := step_read_of_cons hi hc hunread
        have hk : m.port.consumed < k := (hdone _ _ hs).2
        have hunread' : ((refeed w').machine m).port.unread = b :: w'.drop (m.port.consumed + 1) :=
          drop_eq_cons_of_take_eq hk hsame (hu.symm.trans hunread)
        rw [hs, step_read_of_cons (m := (refeed w').machine m) hi hc hunread']
        rfl
  · exact step_onPort rfl (fun _ _ => rfl) hi

namespace Run

/-- In its next turn a run gets the byte that it asks for, and it is among the first `k` bytes. -/
structure Served (c : Config) (p : Program) (k : ℕ) (r : Run) : Prop where
  executed : ∀ a ∈ (p.interpreter c).next? r, a.effect.isStarved = false
  failed : ∀ i s, r.turn c p ≠ .failed (.inputExhausted i) s
  consumed : (r.turn c p).run.machine.port.consumed ≤ k

variable {c : Config} {p : Program} {w w' : List UInt8} {k n : ℕ}

theorem refeed_kept (c : Config) (p : Program) (hsame : w'.take k = w.take k) :
    (refeed w').Kept (fun r => r.machine.port.unread = w.drop r.machine.port.consumed ∧
      r.Served c p k) (p.interpreter c) (p.interpreter c) where
  hasHalted _ _ := rfl
  limit _ := rfl
  record _ _ := rfl
  stepLimit _ := rfl
  step r hr hh hl := by
    obtain ⟨hu, hserved⟩ := hr
    refine Machine.step_refeed hsame hu ?_ ?_
    · intro e m hs
      have ht := Interpreter.turn_of_done (x := p.interpreter c) hh hl hs
      have hk := hserved.consumed
      rw [← p.turn_interpreter, ht] at hk
      exact ⟨hserved.executed _ (Interpreter.next?_of_done ht hs), hk⟩
    · intro i m hs
      exact hserved.failed i _ (Interpreter.turn_of_failed (x := p.interpreter c) hh hl hs)

theorem served_of_running (hread : ∀ a ∈ (Run.start c w).history c p n, a.effect.isStarved = false)
    (hfault : ∀ i s, (Run.start c w).forward c p n ≠ .failed (.inputExhausted i) s)
    {j : ℕ} (hj : j < n) {q : Run} (hq : (Run.start c w).forward c p j = .running q) :
    q.Served c p ((Run.start c w).forward c p n).run.machine.port.consumed := by
  have hq' := hq
  rw [← p.forward_interpreter] at hq'
  have hturn : (Run.start c w).forward c p (j + 1) = q.turn c p := by
    rw [← p.forward_interpreter]
    exact Interpreter.forward_succ_of_running hq'
  refine ⟨?_, ?_, ?_⟩
  · intro a ha
    -- what is executed next belongs to the history of the whole run
    refine hread a (((p.interpreter c).history_isPrefix (.start c w) hj).subset ?_)
    rw [Interpreter.history_succ_of_running hq']
    exact List.mem_append_right _ (Option.mem_toList.2 ha)
  · intro i s hs
    obtain ⟨d, rfl⟩ := Nat.exists_eq_add_of_le hj
    refine hfault i s ?_
    rw [forward_add, show (Run.start c w).forward c p (j.succ) = _ from hturn, hs]
  · rw [← hturn]
    exact (precedes_of_le c p (.start c w) hj).consumed_le

/-- What a run has not read has no influence on it: if it never asks for a byte that the input does
not have, then on every input that begins with the bytes consumed it is the same run, and the two
differ in the unread bytes only. -/
theorem forward_unread (c : Config) (p : Program) (w w' : List UInt8) (n : ℕ)
    (hread : ∀ a ∈ (Run.start c w).history c p n, a.effect.isStarved = false)
    (hfault : ∀ i s, (Run.start c w).forward c p n ≠ .failed (.inputExhausted i) s)
    (hsame : let k := ((Run.start c w).forward c p n).run.machine.port.consumed
      w'.take k = w.take k) :
    ∀ j ≤ n,
      (Run.start c w').forward c p j = (refeed w').progress ((Run.start c w).forward c p j) ∧
      (Run.start c w').history c p j =
        ((Run.start c w).history c p j).map (refeed w').executed := by
  intro j hj
  have hk := (refeed_kept c p hsame).lockstep (r := .start c w) j fun i hi q hq => by
    rw [p.forward_interpreter] at hq
    have hunread := unread_eq c p w i
    rw [hq] at hunread
    exact ⟨hunread, served_of_running hread hfault (Nat.lt_of_lt_of_le hi hj) hq⟩
  rwa [p.forward_interpreter, p.forward_interpreter] at hk

theorem unread_last_byte :
    let c : Config := { memorySize := 1 }
    let p := Program.ofList [',', '[', '.', ',', ']']
    let run (w : List UInt8) := (Run.start c w).forward c p 6
    let history := (Run.start c [3, 0, 9]).history c p 6
    (∀ a ∈ history, a.effect.isStarved = false) ∧
      (∀ i s, run [3, 0, 9] ≠ .failed (.inputExhausted i) s) ∧
      (run [3, 0, 9]).run.machine.port.consumed = 2 ∧
      run [3, 0] = (refeed [3, 0]).progress (run [3, 0, 9]) ∧
      (Run.start c [3, 0]).history c p 6 = history.map (refeed [3, 0]).executed := by
  intro c p run history
  have hread : ∀ a ∈ history, a.effect.isStarved = false := by decide
  have hr : run [3, 0, 9] = .halted (run [3, 0, 9]).run := by decide
  have hfault : ∀ i s, run [3, 0, 9] ≠ .failed (.inputExhausted i) s := fun i s h => by
    cases hr.symm.trans h
  obtain ⟨hforward, hhistory⟩ :=
    forward_unread c p [3, 0, 9] [3, 0] 6 hread hfault (by decide) 6 (Nat.le_refl 6)
  exact ⟨hread, hfault, by decide, hforward, hhistory⟩

end Run

end TapeMachine
