import TapeMachine.Proofs.Tracing

namespace TapeMachine

/-- The part of a machine that can be rebuilt from effects alone. -/
structure View where
  ip : Int
  dp : Int
  tape : Tape
  deriving DecidableEq

def Machine.view (m : Machine) : View := ⟨m.ip, m.dp, m.tape⟩

/-- What an effect makes of a view. A taken jump goes on behind its bracket. -/
def View.replay (c : Config) (v : View) (e : Effect) : View where
  ip := e.jumpTarget.getD v.ip + 1
  dp := v.dp + e.pointerMove
  tape := e.tapeAfter c v.dp v.tape

namespace Machine

variable {c : Config} {p : Program} {m m' : Machine} {e : Effect}

theorem Moves.ip_eq (h : m.Moves c p e m') : m'.ip = e.jumpTarget.getD m.ip + 1 := by
  cases h with
  | onward hi ho hc hj hl hip => rw [hj, hip, Option.getD_none]
  | enter closer v hi he hr hv hne hj hip => rw [hj, hip, Option.getD_none]
  | skip closer hi he hr hv hj hip => rw [hj, hip, Option.getD_some]
  | leave hi he hv hj hl hip => rw [hj, hip, Option.getD_none]
  | again opener v hi he ho hv hne hj hl hip => rw [hj, hip, Option.getD_some]

theorem view_of_step (hs : m.step c p = .done e m') : m'.view = m.view.replay c e := by
  have hacts := acts_of_step hs
  simp only [view, View.replay, (moves_of_step hs).ip_eq, hacts.dp, hacts.tape]

theorem read_of_step (hs : m.step c p = .done e m') :
    m.tape.size ≤ m'.tape.size ∧ ∀ j, m.cell c ≠ .ok j → m'.tape.read j = m.tape.read j := by
  rw [(acts_of_step hs).tape, Effect.tapeAfter]
  split
  · split
    · rename_i i hi
      have hcell : m.cell c = .ok i := cell_eq_ok.2 hi
      constructor
      · rw [Tape.size_store, Tape.size_cover]
        omega
      · intro j hj
        have hne : i ≠ j := fun heq => hj (heq ▸ hcell)
        rw [Tape.read_store, if_neg fun h => hne h.1, Tape.read_cover]
    · exact ⟨Nat.le_refl _, fun _ _ => rfl⟩
  · exact ⟨Nat.le_refl _, fun _ _ => rfl⟩

end Machine

namespace Trace

variable {c : Config} {p : Program} {t : Trace} {symbol : Char} {e : Effect} {m : Machine}

/-- Each step is what the machine did when the steps before it were done. -/
def Faithful (c : Config) (p : Program) (t : Trace) : Prop :=
  ∀ k s, t.steps[k]? = some s → s.number = k ∧ s.index = (t.machineAfter k).ip ∧
    p.symbolAt s.index = .ok s.symbol ∧ (t.machineAfter k).step c p = .done s.effect s.machine

theorem machineAfter_succ {k : ℕ} {s : TraceStep} (h : t.steps[k]? = some s) :
    t.machineAfter (k + 1) = s.machine := by
  simp only [machineAfter, h, Option.map_some, Option.getD_some]

theorem Faithful.start (c : Config) (p : Program) (input : List UInt8) :
    (Trace.start c input).Faithful c p := by
  intro k s hk
  simp [Trace.start] at hk

theorem Faithful.record (h : t.Faithful c p) (hc : t.Complete)
    (hs : t.run.machine.step c p = .done e m)
    (hsymbol : p.symbolAt t.run.machine.ip = .ok symbol) : (t.record symbol e m).Faithful c p := by
  intro k s hk
  rw [show (t.record symbol e m).steps =
    t.steps.push ⟨t.steps.size, t.run.machine.ip, symbol, e, m⟩ from rfl, Array.getElem?_push] at hk
  split at hk
  · rename_i hsize
    cases hk
    rw [hsize, machineAfter_record_of_le (Nat.le_refl _), hc.last]
    exact ⟨rfl, rfl, hsymbol, hs⟩
  · have hlt : k < t.steps.size := by
      by_contra hge
      rw [Array.getElem?_eq_none (Nat.not_lt.1 hge)] at hk
      cases hk
    rw [machineAfter_record_of_le (Nat.le_of_lt hlt)]
    exact h k s hk

theorem Faithful.view_machineAfter (h : t.Faithful c p) (k : ℕ) (hk : k ≤ t.steps.size) :
    (t.machineAfter k).view =
      ((t.steps.toList.take k).map TraceStep.effect).foldl (View.replay c) t.initial.view := by
  induction k with
  | zero => rfl
  | succ k ih =>
    have hs : t.steps[k]? = some t.steps[k] := Array.getElem?_eq_getElem hk
    rw [List.take_add_one, Array.getElem?_toList, hs, List.map_append, List.foldl_append,
      ← ih (Nat.le_of_lt hk), machineAfter_succ hs]
    exact Machine.view_of_step (h k _ hs).2.2.2

/-- The trace of a run that halts can be played back: each step is numbered, shows the symbol of
the text at its position, which is that of its instruction, and leads from the machine behind the
step before it to its own. What it does to the instruction pointer, the data pointer and the tape is in its effect, so that all of
these can be rebuilt without the program, the table and the input. -/
theorem forward_replay (c : Config) (p : Program) (input : List UInt8) (n : ℕ) (t : Trace)
    (ht : (Trace.start c input).forward c p n = .halted t) :
    t.initial = .start c input ∧
    (∀ k s, t.steps[k]? = some s →
      let m := t.machineAfter k
      (s.number = k ∧ s.index = m.ip ∧
        (p.symbolAt s.index = .ok s.symbol ∧ s.symbol = s.effect.instruction.symbol) ∧
        m.step c p = .done s.effect s.machine) ∧
      s.machine.view = m.view.replay c s.effect ∧
      (m.tape.size ≤ s.machine.tape.size ∧
        ∀ j, m.cell c ≠ .ok j → s.machine.tape.read j = m.tape.read j) ∧
      ∀ b, s.effect.written = some b → m.value? c = some b) ∧
    ∀ k ≤ t.steps.size, (t.machineAfter k).view =
      ((t.steps.toList.take k).map TraceStep.effect).foldl (View.replay c) t.initial.view := by
  let I (t : Trace) : Prop :=
    t.initial = .start c input ∧ t.Complete ∧ t.Faithful c p
  obtain ⟨hinitial, -, hfaithful⟩ : I t :=
    forward_induction (I := I) ⟨rfl, .start c input, .start c p input⟩
      (fun _ _ _ h hs => ⟨h.1, h.2.1.record hs,
        h.2.2.record h.2.1 hs (Machine.symbolAt_of_step hs)⟩) (.inr ht)
  refine ⟨hinitial, ?_, hfaithful.view_machineAfter⟩
  intro k s hs m
  obtain ⟨hnumber, hindex, hsymbol, hstep⟩ := hfaithful k s hs
  have hlooked : p.symbolAt s.index = .ok s.effect.instruction.symbol :=
    hindex ▸ Machine.symbolAt_of_step hstep
  exact ⟨⟨hnumber, hindex, ⟨hsymbol, Except.ok.inj (hsymbol.symm.trans hlooked)⟩, hstep⟩,
    Machine.view_of_step hstep, Machine.read_of_step hstep, (Machine.acts_of_step hstep).value⟩

theorem replay_growing_loop :
    let c : Config := { memorySize := 1, eof := .zero, bounds := .grow }
    let p := Program.ofList ['>', ',', '[', ',', ']', '.']
    let t := ((Trace.start c [5]).forward c p 7).trace
    let s : TraceStep := ⟨3, 3, ',', { instruction := .read }, t.machineAfter 4⟩
    (Trace.start c [5]).forward c p 7 = .halted t ∧ t.steps[3]? = some s ∧
      p.symbolAt 3 = .ok s.symbol ∧ s.symbol = s.effect.instruction.symbol ∧
      (t.machineAfter 3).step c p = .done s.effect s.machine ∧
      s.machine.view = (t.machineAfter 3).view.replay c s.effect ∧
      (t.machineAfter 6).view =
        ((t.steps.toList.take 6).map TraceStep.effect).foldl (View.replay c) t.initial.view := by
  intro c p t s
  have ht : (Trace.start c [5]).forward c p 7 = .halted t := by decide
  have hs : t.steps[3]? = some s := by decide
  obtain ⟨-, hsteps, hviews⟩ := forward_replay c p [5] 7 t ht
  obtain ⟨⟨-, -, ⟨hsymbol, hcode⟩, hstep⟩, hview, -, -⟩ := hsteps 3 s hs
  exact ⟨ht, hs, hsymbol, hcode, hstep, hview, hviews 6 (by decide)⟩

end Trace

end TapeMachine
