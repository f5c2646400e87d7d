import TapeMachine.Proofs.Cacheless
import Mathlib.Logic.Function.Basic

namespace TapeMachine

/-- Two maps, one from openers to closers and one back, that need not agree with each other. -/
structure Lookups where
  closer? : Int → Option Int
  opener? : Int → Option Int

namespace Lookups

/-- A pair is entered in both maps, and takes the place of what was there. -/
def record (t : Lookups) (opener closer : Int) : Lookups where
  closer? := Function.update t.closer? opener (some closer)
  opener? := Function.update t.opener? closer (some opener)

def resolve (t : Lookups) (p : Program) (opener : Int) : Except Fault (Int × Lookups) :=
  match t.closer? opener with
  | some closer => .ok (closer, t)
  | none =>
    match p.closerOf opener with
    | .ok closer => .ok (closer, t.record opener closer)
    | .error f => .error f

def openerOf (t : Lookups) (closer : Int) : Except Fault Int :=
  match t.opener? closer with
  | some opener => .ok opener
  | none => .error (.unpairedCloser closer)

end Lookups

namespace LoopTable

def lookups (t : LoopTable) : Lookups := ⟨t.closer?, t.opener?⟩

theorem lookups_record (t : LoopTable) (opener closer : Int) :
    (t.record opener closer).lookups = t.lookups.record opener closer := by
  unfold lookups Lookups.record
  congr 1
  · funext o
    rw [closer?_record, Function.update_apply]
    exact if_congr eq_comm rfl rfl
  · funext d
    rw [opener?_record, Function.update_apply]
    exact if_congr eq_comm rfl rfl

theorem lookups_resolve (t : LoopTable) (p : Program) (opener : Int) :
    t.lookups.resolve p opener =
      (t.resolve p opener).map fun found => (found.1, found.2.lookups) := by
  unfold resolve Lookups.resolve
  rw [show t.lookups.closer? opener = t.closer? opener from rfl]
  cases t.closer? opener with
  | some closer => rfl
  | none =>
    cases p.closerOf opener with
    | error f => rfl
    | ok closer => simp only [Except.map, lookups_record]

theorem lookups_openerOf (t : LoopTable) (closer : Int) :
    t.lookups.openerOf closer = t.openerOf closer := rfl

end LoopTable

namespace Machine

/-- One instruction of a machine that looks loops up in two maps beside it, and not in its table. -/
def stepWith (c : Config) (p : Program) (t : Lookups) (m : Machine) : Step × Lookups :=
  match p.instructionAt m.ip with
  | .error f => (.failed f m, t)
  | .ok .openLoop =>
    match t.resolve p m.ip with
    | .error f => (.failed f m, t)
    | .ok (closer, t) =>
      (m.atCell c fun i m =>
        if m.tape.read i = 0 then
          .done { instruction := .openLoop, jumpTarget := some closer } (m.jump closer)
        else .done { instruction := .openLoop } m.advance, t)
  | .ok .closeLoop =>
    (m.atCell c fun i m =>
      if m.tape.read i = 0 then .done { instruction := .closeLoop } m.advance
      else match t.openerOf m.ip with
        | .error f => .failed f m
        | .ok opener =>
          .done { instruction := .closeLoop, jumpTarget := some opener } (m.jump opener), t)
  | .ok i => (m.perform c p i, t)

variable {c : Config} {p : Program} {m : Machine}

theorem loops_atCell {act : ℕ → Machine → Step}
    (h : ∀ i tape, (act i { m with tape }).machine.loops = m.loops) :
    (m.atCell c act).machine.loops = m.loops := by
  unfold atCell
  cases m.cell c with
  | error f => rfl
  | ok i => exact h i _

theorem loops_perform {k : Instruction} (hk : k ≠ .openLoop) :
    (m.perform c p k).machine.loops = m.loops := by
  cases k with
  | moveRight | moveLeft => rfl
  | increment | decrement | write =>
    simp only [perform]
    exact loops_atCell fun _ _ => rfl
  | read =>
    simp only [perform]
    refine loops_atCell fun i tape => ?_
    dsimp only
    cases m.port.take? with
    | some taken => rfl
    | none => cases c.eof <;> rfl
  | openLoop => exact absurd rfl hk
  | closeLoop =>
    simp only [perform]
    refine loops_atCell fun i tape => ?_
    dsimp only
    split
    · rfl
    · cases m.loops.openerOf m.ip <;> rfl

/-- A machine with a table steps as it does without, with the maps of the table beside it. -/
theorem stepWith_lookups (c : Config) (p : Program) (m : Machine) :
    stepWith c p m.loops.lookups (withoutTable.machine m) =
      (withoutTable.step (m.step c p), (m.step c p).machine.loops.lookups) := by
  have hip : (withoutTable.machine m).ip = m.ip := rfl
  unfold stepWith
  rw [hip]
  cases hi : p.instructionAt m.ip with
  | error f =>
    rw [step_of_error hi]
    rfl
  | ok k =>
    rw [step_eq_perform hi]
    cases k with
    | openLoop =>
      dsimp only
      rw [LoopTable.lookups_resolve]
      simp only [perform]
      cases m.loops.resolve p m.ip with
      | error f => rfl
      | ok found =>
        dsimp only [Except.map]
        -- the pair has been entered on both sides before the cell is looked at
        refine congrArg₂ Prod.mk ?_ (congrArg LoopTable.lookups (Eq.symm ?_))
        · refine atCell_withoutTable (m := { m with loops := found.2 }) fun i tape => ?_
          dsimp only
          split <;> rfl
        · refine loops_atCell (m := { m with loops := found.2 }) fun i tape => ?_
          dsimp only
          split <;> rfl
    | closeLoop =>
      refine congrArg₂ Prod.mk ?_ (congrArg LoopTable.lookups (loops_perform (by decide)).symm)
      simp only [perform]
      refine atCell_withoutTable fun i tape => ?_
      dsimp only [LoopTable.lookups_openerOf]
      split
      · rfl
      · cases m.loops.openerOf m.ip <;> rfl
    | _ =>
      refine congrArg₂ Prod.mk ?_ (congrArg LoopTable.lookups (loops_perform (by decide)).symm)
      exact perform_withoutTable (by decide) (by decide)

end Machine

end TapeMachine
