import TapeMachine.Proofs.Lockstep
import TapeMachine.Proofs.Tracking

namespace TapeMachine

namespace Machine

/-- One instruction of a machine that has no table of its own and takes the loops from the text. -/
def cachelessStep (c : Config) (p : Program) (m : Machine) : Step :=
  match p.instructionAt m.ip with
  | .error f => .failed f m
  | .ok .openLoop =>
    match p.loops.closer? m.ip with
    | none => .failed (.unmatchedOpener m.ip) m
    | some closer => m.atCell c fun i m =>
      if m.tape.read i = 0 then
        .done { instruction := .openLoop, jumpTarget := some closer } (m.jump closer)
      else .done { instruction := .openLoop } m.advance
  | .ok .closeLoop => m.atCell c fun i m =>
    if m.tape.read i = 0 then .done { instruction := .closeLoop } m.advance
    else match p.loops.opener? m.ip with
      | none => .failed (.unpairedCloser m.ip) m
      | some opener =>
        .done { instruction := .closeLoop, jumpTarget := some opener } (m.jump opener)
  | .ok i => m.perform c p i

end Machine

def withoutTable : Reading where
  machine m := { m with loops := {} }

variable {c : Config} {p : Program} {m : Machine}

theorem Machine.atCell_withoutTable {act act' : ℕ → Machine → Step}
    (h : ∀ i tape,
      act' i { m with tape, loops := {} } = withoutTable.step (act i { m with tape })) :
    atCell { m with loops := {} } c act' = withoutTable.step (m.atCell c act) :=
  Reading.atCell_eq rfl (fun i hi => ⟨hi, h i _⟩) fun _ hf => hf

theorem Machine.perform_withoutTable {i : Instruction} (ho : i ≠ .openLoop) (hc : i ≠ .closeLoop) :
    perform c p { m with loops := {} } i = withoutTable.step (m.perform c p i) := by
  cases i with
  | moveRight | moveLeft => rfl
  | increment | decrement | write =>
    simp only [perform]
    exact atCell_withoutTable fun _ _ => rfl
  | read =>
    simp only [perform]
    refine atCell_withoutTable fun i tape => ?_
    dsimp only
    cases m.port.take? with
    | some r => rfl
    | none => cases c.eof <;> rfl
  | openLoop => exact absurd rfl ho
  | closeLoop => exact absurd rfl hc

theorem Machine.cachelessStep_withoutTable (h : m.Tracked p) :
    cachelessStep c p { m with loops := {} } = withoutTable.step (m.step c p) := by
  cases hi : p.instructionAt m.ip with
  | error f =>
    rw [step_of_error hi]
    simp only [cachelessStep, hi]
    rfl
  | ok i =>
    rw [step_eq_perform hi]
    cases i with
    | openLoop =>
      simp only [cachelessStep, hi, perform]
      cases hc : p.loops.closer? m.ip with
      | none =>
        have hn (d : Int) : ¬ p.HasLoop m.ip d := fun hd => by
          have hs := LoopTable.sound_loops p
          rw [← Program.mem_loops, ← LoopTable.closer?_eq_some_iff hs, hc] at hd
          cases hd
        rw [LoopTable.resolve_of_not_hasLoop h.sound hi h.nonneg hn]
        rfl
      | some closer =>
        -- a loop that the text has is found by the table's own search
        have hl := LoopTable.sound_loops p _ _ (LoopTable.mem_of_closer? hc)
        obtain ⟨t, ht⟩ := LoopTable.exists_resolve_of_hasLoop h.sound hl
        rw [ht]
        refine atCell_withoutTable (m := { m with loops := t }) fun i tape => ?_
        dsimp only
        split <;> rfl
    | closeLoop =>
      simp only [cachelessStep, hi, perform]
      refine atCell_withoutTable fun i tape => ?_
      dsimp only [LoopTable.openerOf]
      -- the way back has been recorded when the opener was passed
      rw [h.opener?_eq]
      split
      · rfl
      · cases p.loops.opener? m.ip <;> rfl
    | _ =>
      simp only [cachelessStep, hi]
      exact perform_withoutTable (by decide) (by decide)

end TapeMachine
