import TapeMachine.Proofs.Action
import TapeMachine.Proofs.Lockstep

namespace TapeMachine

/-- From one port to a later one, bytes were taken from the front of the unread ones and bytes were
put behind the written ones, and that is all. -/
structure Port.Precedes (q q' : Port) : Prop where
  written : q.written.toList <+: q'.written.toList
  taken : ∃ bytes, q.unread = bytes ++ q'.unread ∧ q'.consumed = q.consumed + bytes.length

namespace Port.Precedes

variable {a b c : Port}

theorem refl (q : Port) : q.Precedes q := ⟨List.prefix_refl _, [], rfl, rfl⟩

theorem trans (h : a.Precedes b) (h' : b.Precedes c) : a.Precedes c := by
  obtain ⟨hw, s, hs, hn⟩ := h
  obtain ⟨hw', t, ht, hn'⟩ := h'
  refine ⟨hw.trans hw', s ++ t, ?_, ?_⟩
  · rw [hs, ht, List.append_assoc]
  · rw [hn', hn, List.length_append, Nat.add_assoc]

theorem consumed_le (h : a.Precedes b) : a.consumed ≤ b.consumed := by
  obtain ⟨-, s, -, hn⟩ := h
  omega

theorem unread_eq {input : List UInt8} (h : (Port.ofInput input).Precedes b) :
    b.unread = input.drop b.consumed := by
  obtain ⟨-, s, hs, hn⟩ := h
  have hlen : b.consumed = s.length := hn.trans (Nat.zero_add _)
  rw [hlen, show input = s ++ b.unread from hs, List.drop_left]

end Port.Precedes

namespace Machine

variable {c d : Config} {p : Program} {m m' : Machine} {e : Effect} {f : Fault}

theorem Acts.precedes (h : m.Acts c e m') : m.port.Precedes m'.port where
  written := ⟨_, h.written.symm⟩
  taken := ⟨_, h.unread, h.consumed⟩

end Machine

namespace Run

variable {c : Config} {p : Program} {r : Run} {input : List UInt8}

theorem precedes_forward (c : Config) (p : Program) (r : Run) (n : ℕ) :
    r.machine.port.Precedes (r.forward c p n).run.machine.port := by
  rw [← p.forward_interpreter]
  refine Interpreter.forward_induction (I := fun s => r.machine.port.Precedes s.machine.port)
    (.refl _) ?_ ?_ n
  · intro s e m hs _ hd
    exact hs.trans (Machine.acts_of_step hd).precedes
  · intro s f m hs _ hf
    rw [(Machine.fails_of_step hf).port_eq]
    exact hs

theorem precedes_turn (c : Config) (p : Program) (r : Run) :
    r.machine.port.Precedes (r.turn c p).run.machine.port := by
  rw [← forward_one]
  exact precedes_forward c p r 1

theorem precedes_of_le (c : Config) (p : Program) (r : Run) {k n : ℕ} (h : k ≤ n) :
    (r.forward c p k).run.machine.port.Precedes (r.forward c p n).run.machine.port := by
  obtain ⟨d, rfl⟩ := Nat.exists_eq_add_of_le h
  rw [forward_add]
  cases r.forward c p k with
  | running s => exact precedes_forward c p s d
  | halted s => exact .refl _
  | failed f s => exact .refl _

theorem unread_eq (c : Config) (p : Program) (input : List UInt8) (n : ℕ) :
    let port := ((Run.start c input).forward c p n).run.machine.port
    port.unread = input.drop port.consumed :=
  (precedes_forward c p (Run.start c input) n).unread_eq

end Run

/-- A read that found no byte. -/
def Effect.isStarved (e : Effect) : Bool := e.instruction = .read ∧ e.read = none

def onPort (g : Port → Port) : Reading where
  machine m := { m with port := g m.port }

namespace Machine

variable {c d : Config} {p : Program} {m : Machine} {g : Port → Port}

theorem cell_onPort (hb : d.bounds = c.bounds) (q : Port) :
    cell { m with port := q } d = m.cell c := by
  simp only [cell, hb]

theorem atCell_onPort (hb : d.bounds = c.bounds) {act act' : ℕ → Machine → Step}
    (h : ∀ i tape, act' i ((onPort g).machine { m with tape }) =
      (onPort g).step (act i { m with tape })) :
    ((onPort g).machine m).atCell d act' = (onPort g).step (m.atCell c act) :=
  Reading.atCell_eq rfl (fun i hi => ⟨(cell_onPort hb _).trans hi, h i _⟩)
    fun _ hf => (cell_onPort hb _).trans hf

/-- Only a read depends on what the port holds. -/
theorem perform_onPort (hb : d.bounds = c.bounds) (hput : ∀ q b, (g q).put b = g (q.put b))
    {i : Instruction} (hi : i ≠ .read) :
    ((onPort g).machine m).perform d p i = (onPort g).step (m.perform c p i) := by
  cases i with
  | moveRight | moveLeft => rfl
  | increment | decrement =>
    simp only [perform]
    exact atCell_onPort hb fun _ _ => rfl
  | write =>
    simp only [perform]
    refine atCell_onPort hb fun i tape => ?_
    simp only [onPort, hput]
    rfl
  | read => exact absurd rfl hi
  | openLoop =>
    simp only [perform]
    rw [show ((onPort g).machine m).loops.resolve p ((onPort g).machine m).ip =
      m.loops.resolve p m.ip from rfl]
    cases m.loops.resolve p m.ip with
    | error f => rfl
    | ok t =>
      refine atCell_onPort (m := { m with loops := t.2 }) hb fun i tape => ?_
      rw [show ((onPort g).machine { m with loops := t.2, tape }).tape.read i = tape.read i
        from rfl]
      dsimp only
      split <;> rfl
  | closeLoop =>
    simp only [perform]
    refine atCell_onPort hb fun i tape => ?_
    rw [show ((onPort g).machine { m with tape }).tape.read i = tape.read i from rfl,
      show ((onPort g).machine { m with tape }).loops.openerOf
        ((onPort g).machine { m with tape }).ip = m.loops.openerOf m.ip from rfl]
    dsimp only
    split
    · rfl
    · cases m.loops.openerOf m.ip <;> rfl

theorem step_onPort (hb : d.bounds = c.bounds) (hput : ∀ q b, (g q).put b = g (q.put b))
    (hi : p.instructionAt m.ip ≠ .ok .read) :
    ((onPort g).machine m).step d p = (onPort g).step (m.step c p) := by
  cases hk : p.instructionAt m.ip with
  | error f =>
    rw [step_of_error hk, step_of_error (m := (onPort g).machine m) hk]
    rfl
  | ok k =>
    rw [step_eq_perform hk, step_eq_perform (m := (onPort g).machine m) hk]
    exact perform_onPort hb hput fun he => hi (he ▸ hk)

def covered (m : Machine) (i : ℕ) : Machine := { m with tape := m.tape.cover i }

variable {i : ℕ} {b : UInt8} {rest : List UInt8} {f : Fault}

theorem step_read_of_error (hi : p.instructionAt m.ip = .ok .read) (hc : m.cell c = .error f) :
    m.step c p = .failed f m := by
  rw [step_eq_perform hi]
  simp only [perform, atCell, hc]

theorem step_read_of_cons (hi : p.instructionAt m.ip = .ok .read) (hc : m.cell c = .ok i)
    (hu : m.port.unread = b :: rest) :
    m.step c p = .done { instruction := .read, read := some b } (store { m.covered i with
      port := { m.port with unread := rest, consumed := m.port.consumed + 1 } } i b).advance := by
  rw [step_eq_perform hi]
  simp only [perform, atCell, hc, Port.take?, hu]
  rfl

theorem step_read_of_nil (hi : p.instructionAt m.ip = .ok .read) (hc : m.cell c = .ok i)
    (hu : m.port.unread = []) :
    m.step c p = match c.eof with
      | .error => .failed (.inputExhausted m.ip) (m.covered i)
      | .zero => .done { instruction := .read } ((m.covered i).store i 0).advance
      | .unchanged => .done { instruction := .read } (m.covered i).advance := by
  rw [step_eq_perform hi]
  simp only [perform, atCell, hc, Port.take?, hu]
  rfl

end Machine

end TapeMachine
