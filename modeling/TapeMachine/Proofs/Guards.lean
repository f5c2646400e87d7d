import TapeMachine.Proofs.Addressing
import TapeMachine.Proofs.Recording
import TapeMachine.Proofs.Replay

namespace TapeMachine

namespace Machine

variable {c : Config} {p : Program} {m m' : Machine} {e : Effect} {v : UInt8}

/-- The data pointer stands for a cell of the tape, and `v` is its value. -/
def Holds (c : Config) (m : Machine) (v : UInt8) : Prop :=
  ∃ i, m.cell c = .ok i ∧ i < m.tape.size ∧ m.tape.read i = v

structure Guarded (c : Config) (p : Program) (m : Machine) : Prop where
  closer : p.symbolAt (m.ip - 1) = .ok ']' → m.Holds c 0
  opener : p.symbolAt (m.ip - 1) = .ok '[' → ∃ v, v ≠ 0 ∧ m.Holds c v

theorem holds_of_step (hs : m.step c p = .done e m') (ha : e.instruction.addresses = true)
    (hv : m.value? c = some v) : m'.Holds c (e.cellAfter c v) := by
  obtain ⟨hn, -⟩ | ⟨-, i, hc, ht⟩ := tape_of_step hs
  · rw [ha] at hn
    cases hn
  · have hsize : m'.tape.size = max m.tape.size (i + 1) := by
      rw [ht, Tape.size_store, Tape.size_cover]
    have hdp : m'.dp = m.dp := by
      rw [(acts_of_step hs).dp, Effect.pointerMove_of_addresses ha, Int.add_zero]
    have hread : m.tape.read i = v := Option.some.inj ((value?_of_cell hc).symm.trans hv)
    -- the pointer stands for the same cell when that has been appended
    refine ⟨i, ?_, by omega, ?_⟩
    · rw [cell_eq_ok, hsize, hdp]
      exact BoundsPolicy.cell_of_covered (cell_eq_ok.1 hc)
    · rw [ht, hread, Tape.read_store, if_pos ⟨rfl, by rw [Tape.size_cover]; omega⟩]

theorem holds_of_bracket (hs : m.step c p = .done e m')
    (hk : e.instruction = .openLoop ∨ e.instruction = .closeLoop) (hv : m.value? c = some v) :
    m'.Holds c v := by
  have ha : e.instruction.addresses = true := by obtain hk | hk := hk <;> rw [hk] <;> rfl
  have hcell : e.cellAfter c v = v := by
    unfold Effect.cellAfter
    obtain hk | hk := hk <;> rw [hk]
  have h := holds_of_step hs ha hv
  rwa [hcell] at h

theorem Guarded.of_closer (hs : p.symbolAt (m.ip - 1) = .ok ']') (h : m.Holds c 0) :
    m.Guarded c p where
  closer _ := h
  opener ho := by cases hs.symm.trans ho

theorem Guarded.of_opener (hs : p.symbolAt (m.ip - 1) = .ok '[') (h : m.Holds c v) (hv : v ≠ 0) :
    m.Guarded c p where
  closer hc := by cases hs.symm.trans hc
  opener _ := ⟨v, hv, h⟩

/-- Every instruction leads to a place that its cell allows, also one that jumps: the table leads
to the closer of an opener and back to the opener of a closer. -/
theorem Tracked.guarded_of_step (h : m.Tracked p) (hs : m.step c p = .done e m') :
    m'.Guarded c p := by
  have behind {i : Int} (hip : m'.ip = i + 1) : m'.ip - 1 = i := by omega
  cases moves_of_step hs with
  | onward hi ho hc hj hl hip =>
    have hsym := Program.symbolAt_of_instructionAt hi
    constructor <;> intro hb <;> rw [behind hip, hsym, Except.ok.injEq] at hb
    · exact absurd (Instruction.symbol_injective (j := .closeLoop) hb) hc
    · exact absurd (Instruction.symbol_injective (j := .openLoop) hb) ho
  | enter closer v hi he hr hv hne hj hip =>
    refine .of_opener ?_ (holds_of_bracket hs (.inl he) hv) hne
    rw [behind hip]
    exact Program.symbolAt_of_instructionAt hi
  | skip closer hi he hr hv hj hip =>
    refine .of_closer ?_ (holds_of_bracket hs (.inl he) hv)
    rw [behind hip]
    exact (LoopTable.hasLoop_of_resolve h.sound hi h.nonneg hr).symbolAt_closer
  | leave hi he hv hj hl hip =>
    refine .of_closer ?_ (holds_of_bracket hs (.inr he) hv)
    rw [behind hip]
    exact Program.symbolAt_of_instructionAt hi
  | again opener v hi he ho hv hne hj hl hip =>
    refine .of_opener ?_ (holds_of_bracket hs (.inr he) hv) hne
    rw [behind hip]
    exact (LoopTable.hasLoop_of_openerOf h.sound ho).symbolAt_opener

end Machine

namespace Run

variable {c : Config} {p : Program} {input : List UInt8} {n : ℕ} {r : Run}

theorem guarded_of_running (h : (Run.start c input).forward c p n = .running r)
    (hip : 0 < r.machine.ip) : r.machine.Guarded c p := by
  cases n with
  | zero =>
    cases h
    exact absurd hip (Int.lt_irrefl 0)
  | succ n =>
    rw [← p.forward_interpreter] at h
    obtain ⟨q, hq, ht⟩ := Interpreter.exists_turn_of_forward_succ h
    obtain ⟨-, e, m, hs, rfl⟩ := Interpreter.exists_done_of_turn ht
    rw [p.forward_interpreter] at hq
    exact (tracked_of_running hq).guarded_of_step hs

/-- A loop is left, passed over, or a closer without an opener passed, on a zero cell only, and a
body is entered, for the first time or again, on any other value only: wherever a run stands behind
a bracket, the addressed cell is on the tape and has such a value. -/
theorem loops_guarded (c : Config) (p : Program) (input : List UInt8) (n : ℕ) (r : Run)
    (h : (Run.start c input).forward c p n = .running r) (hip : 0 < r.machine.ip) :
    (p.symbolAt (r.machine.ip - 1) = .ok ']' →
      ∃ i, r.machine.cell c = .ok i ∧ i < r.machine.tape.size ∧ r.machine.tape.read i = 0) ∧
    (p.symbolAt (r.machine.ip - 1) = .ok '[' →
      ∃ i, r.machine.cell c = .ok i ∧ i < r.machine.tape.size ∧ r.machine.tape.read i ≠ 0) := by
  have hg := guarded_of_running h hip
  refine ⟨hg.closer, fun ho => ?_⟩
  obtain ⟨v, hv, i, hc, hi, hr⟩ := hg.opener ho
  exact ⟨i, hc, hi, hr ▸ hv⟩

theorem loops_guarded_again :
    let around : Config := { memorySize := 2, bounds := .wrap }
    let p := Program.ofList ['<', '+', '+', '[', '-', ']']
    let r := ((Run.start around []).forward around p 6).run
    let growing : Config := { memorySize := 1, bounds := .grow }
    let q := Program.ofList ['>', '>', '[', '-', ']']
    let s := ((Run.start growing []).forward growing q 3).run
    ((Run.start around []).forward around p 6 = .running r ∧ r.machine.dp = -1 ∧
      p.symbolAt (r.machine.ip - 1) = .ok '[' ∧ ∃ i, r.machine.cell around = .ok i ∧
        i < r.machine.tape.size ∧ r.machine.tape.read i ≠ 0) ∧
    (Run.start growing []).forward growing q 3 = .running s ∧
      q.symbolAt (s.machine.ip - 1) = .ok ']' ∧ ∃ i, s.machine.cell growing = .ok i ∧
        i < s.machine.tape.size ∧ s.machine.tape.read i = 0 := by
  intro around p r growing q s
  have hr : (Run.start around []).forward around p 6 = .running r := by decide
  have hs : (Run.start growing []).forward growing q 3 = .running s := by decide
  have hopener : p.symbolAt (r.machine.ip - 1) = .ok '[' := by decide
  have hcloser : q.symbolAt (s.machine.ip - 1) = .ok ']' := by decide
  exact ⟨⟨hr, by decide, hopener, (loops_guarded around p [] 6 r hr (by decide)).2 hopener⟩,
    hs, hcloser, (loops_guarded growing q [] 3 s hs (by decide)).1 hcloser⟩

end Run

end TapeMachine
