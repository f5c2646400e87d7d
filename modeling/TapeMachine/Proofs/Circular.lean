import TapeMachine.Proofs.Action
import TapeMachine.Proofs.Lookups

namespace TapeMachine

/-- Where a circle of so many cells has its cell `i` after it was turned by `k`. -/
def around (size : ℕ) (k : Int) (i : ℕ) : ℕ := ((i + k) % size).toNat

section

variable {size i j : ℕ} {k : Int}

theorem natCast_around (h : 0 < size) (k : Int) (i : ℕ) :
    (around size k i : Int) = (i + k) % size :=
  Int.toNat_of_nonneg (Int.emod_nonneg _ (by omega))

theorem around_lt (h : 0 < size) (k : Int) (i : ℕ) : around size k i < size := by
  have hlt : (i + k) % size < size := Int.emod_lt_of_pos _ (by omega)
  rw [← natCast_around h] at hlt
  exact Int.ofNat_lt.1 hlt

theorem around_inj (hi : i < size) (hj : j < size) : around size k i = around size k j ↔ i = j := by
  refine ⟨fun h => ?_, fun h => h ▸ rfl⟩
  have h0 : 0 < size := Nat.zero_lt_of_lt hi
  have hmod : ((i : Int) + k) % size = (j + k) % size := by
    rw [← natCast_around h0, ← natCast_around h0, h]
  rw [Int.emod_add_cancel_right, Int.emod_eq_of_lt (by omega) (by omega),
    Int.emod_eq_of_lt (by omega) (by omega)] at hmod
  exact Int.ofNat_inj.1 hmod

theorem around_of_dvd (hk : (size : Int) ∣ k) (hi : i < size) : around size k i = i := by
  obtain ⟨q, rfl⟩ := hk
  rw [around, Int.add_mul_emod_self_left, Int.emod_eq_of_lt (by omega) (by omega),
    Int.toNat_natCast]

theorem around_around (h : 0 < size) (j k : Int) (i : ℕ) :
    around size k (around size j i) = around size (j + k) i := by
  rw [around, natCast_around h, Int.emod_add_emod, Int.add_assoc]
  rfl

end

theorem BoundsPolicy.cell_wrap {size : ℕ} (h : 0 < size) (pointer : Int) :
    BoundsPolicy.wrap.cell size pointer = .ok (around size pointer 0) := by
  unfold cell around
  rw [Int.natCast_zero, Int.zero_add]
  split
  · rename_i hin
    rw [Int.emod_eq_of_lt hin.1 hin.2]
  · exact if_neg (Nat.ne_of_gt h)

def Step.result : Step → Except Fault Effect
  | done e _ => .ok e
  | failed f _ => .error f

namespace Machine

/-- The machine after so many steps, one upon the other, whatever becomes of them. -/
def after (c : Config) (p : Program) (m : Machine) : ℕ → Machine
  | 0 => m
  | n + 1 => ((m.after c p n).step c p).machine

/-- The same for a machine that looks its loops up in two maps beside it. -/
def afterWith (c : Config) (p : Program) (t : Lookups) (m : Machine) : ℕ → Machine × Lookups
  | 0 => (m, t)
  | n + 1 =>
    let (m, t) := m.afterWith c p t n
    let (s, t) := m.stepWith c p t
    (s.machine, t)

/-- The second machine has its tape of `size` cells turned by `k`, and its data pointer has gone
with it; in all else the two are the same. -/
structure Turned (size : ℕ) (k : Int) (m m' : Machine) : Prop where
  ip : m'.ip = m.ip
  dp : m'.dp = m.dp + k
  loops : m'.loops = m.loops
  port : m'.port = m.port
  size_left : m.tape.size = size
  size_right : m'.tape.size = size
  read : ∀ i < size, m'.tape.read (around size k i) = m.tape.read i

end Machine

structure Step.Turned (size : ℕ) (k : Int) (s s' : Step) : Prop where
  result : s'.result = s.result
  machine : s.machine.Turned size k s'.machine

namespace Machine

variable {c : Config} {p : Program} {size i : ℕ} {k : Int} {m m' : Machine}

namespace Turned

theorem done (e : Effect) (h : m.Turned size k m') : Step.Turned size k (.done e m) (.done e m') :=
  ⟨rfl, h⟩

theorem failed (f : Fault) (h : m.Turned size k m') :
    Step.Turned size k (.failed f m) (.failed f m') :=
  ⟨rfl, h⟩

theorem withIp (h : m.Turned size k m') (ip : Int) :
    Turned size k { m with ip } { m' with ip } :=
  { h with ip := rfl }

theorem advance (h : m.Turned size k m') : m.advance.Turned size k m'.advance := by
  rw [Machine.advance, Machine.advance, h.ip]
  exact h.withIp _

theorem jump (h : m.Turned size k m') (bracket : Int) :
    (m.jump bracket).Turned size k (m'.jump bracket) :=
  h.withIp _

theorem move (h : m.Turned size k m') (d : Int) :
    Turned size k { m with dp := m.dp + d } { m' with dp := m'.dp + d } :=
  { h with dp := by rw [h.dp, Int.add_right_comm] }

theorem withPort (h : m.Turned size k m') (port : Port) :
    Turned size k { m with port } { m' with port } :=
  { h with port := rfl }

theorem withLoops (h : m.Turned size k m') (loops : LoopTable) :
    Turned size k { m with loops } { m' with loops } :=
  { h with loops := rfl }

theorem store (h : m.Turned size k m') (hi : i < size) (v : UInt8) :
    (m.store i v).Turned size k (m'.store (around size k i) v) where
  ip := h.ip
  dp := h.dp
  loops := h.loops
  port := h.port
  size_left := (Tape.size_store ..).trans h.size_left
  size_right := (Tape.size_store ..).trans h.size_right
  read j hj := by
    have h0 : 0 < size := Nat.zero_lt_of_lt hi
    simp only [Machine.store, Tape.read_store, h.size_left, h.size_right, around_inj hi hj,
      around_lt h0 k i, hi, and_true, h.read j hj]

theorem atCell (h : m.Turned size k m') (hw : c.bounds = .wrap) (h0 : 0 < size)
    {act : ℕ → Machine → Step}
    (hact : ∀ i < size, Step.Turned size k (act i m) (act (around size k i) m')) :
    Step.Turned size k (m.atCell c act) (m'.atCell c act) := by
  have onward {m : Machine} (hsize : m.tape.size = size) :
      m.atCell c act = act (around size m.dp 0) m := by
    have hc : m.cell c = .ok (around size m.dp 0) := by
      rw [cell_eq_ok, hw, hsize, BoundsPolicy.cell_wrap h0]
    have hlt : around size m.dp 0 < m.tape.size := hsize.symm ▸ around_lt h0 m.dp 0
    -- the cell is one of the circle, so that none is appended
    simp only [Machine.atCell, hc, Tape.cover, if_pos hlt]
  rw [onward h.size_left, onward h.size_right, h.dp, ← around_around h0]
  exact hact _ (around_lt h0 m.dp 0)

theorem atOpener (h : m.Turned size k m') (hw : c.bounds = .wrap) (h0 : 0 < size) (closer : Int) :
    let act (i : ℕ) (m : Machine) : Step :=
      if m.tape.read i = 0 then
        .done { instruction := .openLoop, jumpTarget := some closer } (m.jump closer)
      else .done { instruction := .openLoop } m.advance
    Step.Turned size k (m.atCell c act) (m'.atCell c act) := by
  intro act
  refine h.atCell hw h0 fun i hi => ?_
  simp only [act, h.read i hi]
  split
  · exact (h.jump closer).done _
  · exact h.advance.done _

theorem atCloser (h : m.Turned size k m') (hw : c.bounds = .wrap) (h0 : 0 < size)
    (opener : Machine → Except Fault Int) (ho : opener m' = opener m) :
    let act (i : ℕ) (m : Machine) : Step :=
      if m.tape.read i = 0 then .done { instruction := .closeLoop } m.advance
      else match opener m with
        | .error f => .failed f m
        | .ok opener =>
          .done { instruction := .closeLoop, jumpTarget := some opener } (m.jump opener)
    Step.Turned size k (m.atCell c act) (m'.atCell c act) := by
  intro act
  refine h.atCell hw h0 fun i hi => ?_
  simp only [act, h.read i hi, ho]
  split
  · exact h.advance.done _
  · cases opener m with
    | error f => exact h.failed f
    | ok opener => exact (h.jump opener).done _

theorem perform (h : m.Turned size k m') (hw : c.bounds = .wrap) (h0 : 0 < size)
    (i : Instruction) : Step.Turned size k (m.perform c p i) (m'.perform c p i) := by
  cases i with
  | moveRight => exact (h.move 1).advance.done _
  | moveLeft => exact (h.move (-1)).advance.done _
  | increment | decrement =>
    simp only [Machine.perform]
    refine h.atCell hw h0 fun i hi => ?_
    rw [h.read i hi]
    exact (h.store hi _).advance.done _
  | write =>
    simp only [Machine.perform]
    refine h.atCell hw h0 fun i hi => ?_
    rw [h.read i hi, h.port]
    exact (h.withPort _).advance.done _
  | read =>
    simp only [Machine.perform]
    refine h.atCell hw h0 fun i hi => ?_
    rw [h.port]
    cases m.port.take? with
    | some bp => exact ((h.withPort _).store hi _).advance.done _
    | none =>
      cases c.eof with
      | error =>
        dsimp only
        rw [h.ip]
        exact h.failed _
      | zero => exact (h.store hi 0).advance.done _
      | unchanged => exact h.advance.done _
  | openLoop =>
    simp only [Machine.perform]
    rw [show m'.loops.resolve p m'.ip = m.loops.resolve p m.ip by rw [h.loops, h.ip]]
    cases m.loops.resolve p m.ip with
    | error f => exact h.failed f
    | ok t =>
      exact (h.withLoops t.2).atOpener hw h0 t.1
  | closeLoop =>
    exact h.atCloser hw h0 (fun m => m.loops.openerOf m.ip) (by rw [h.loops, h.ip])

theorem step (h : m.Turned size k m') (hw : c.bounds = .wrap) (h0 : 0 < size) :
    Step.Turned size k (m.step c p) (m'.step c p) := by
  unfold Machine.step
  rw [h.ip]
  cases p.instructionAt m.ip with
  | error f => exact h.failed f
  | ok i => exact h.perform hw h0 i

theorem after (h : m.Turned size k m') (hw : c.bounds = .wrap) (h0 : 0 < size) (n : ℕ) :
    (m.after c p n).Turned size k (m'.after c p n) := by
  induction n with
  | zero => exact h
  | succ n ih => exact (ih.step hw h0).machine

theorem stepWith (h : m.Turned size k m') (hw : c.bounds = .wrap) (h0 : 0 < size) (t : Lookups) :
    Step.Turned size k (m.stepWith c p t).1 (m'.stepWith c p t).1 ∧
      (m'.stepWith c p t).2 = (m.stepWith c p t).2 := by
  unfold Machine.stepWith
  rw [h.ip]
  cases p.instructionAt m.ip with
  | error f => exact ⟨h.failed f, rfl⟩
  | ok i =>
    cases i with
    | openLoop =>
      dsimp only
      cases t.resolve p m.ip with
      | error f => exact ⟨h.failed f, rfl⟩
      | ok found => exact ⟨h.atOpener hw h0 found.1, rfl⟩
    | closeLoop => exact ⟨h.atCloser hw h0 (fun m => t.openerOf m.ip) (by rw [h.ip]), rfl⟩
    | _ =>
      dsimp only
      exact ⟨h.perform hw h0 _, rfl⟩

theorem afterWith (h : m.Turned size k m') (hw : c.bounds = .wrap) (h0 : 0 < size) (t : Lookups)
    (n : ℕ) : (m.afterWith c p t n).1.Turned size k (m'.afterWith c p t n).1 ∧
      (m'.afterWith c p t n).2 = (m.afterWith c p t n).2 := by
  induction n with
  | zero => exact ⟨h, rfl⟩
  | succ n ih =>
    obtain ⟨hn, ht⟩ := ih
    simp only [Machine.afterWith, ht]
    obtain ⟨hstep, hmaps⟩ := hn.stepWith (p := p) hw h0 (m.afterWith c p t n).2
    exact ⟨hstep.machine, hmaps⟩

theorem of_dvd {d : Int} (hsize : m.tape.size = size) (hk : (size : Int) ∣ d - m.dp) :
    m.Turned size (d - m.dp) { m with dp := d } where
  ip := rfl
  dp := by
    dsimp only
    omega
  loops := rfl
  port := rfl
  size_left := hsize
  size_right := hsize
  read i hi := by rw [around_of_dvd hk hi]

theorem eq_of_dvd (h : m.Turned size k m') (hk : (size : Int) ∣ k) :
    m' = { m with dp := m.dp + k } := by
  obtain ⟨hip, hdp, hloops, hport, hleft, hright, hread⟩ := h
  have htape : m'.tape = m.tape := by
    refine Tape.eq_of_read (hright.trans hleft.symm) fun i hi => ?_
    rw [hright] at hi
    rw [← hread i hi, around_of_dvd hk hi]
  obtain ⟨ip, dp, tape, loops, port⟩ := m'
  subst hip hdp hloops hport htape
  rfl

end Turned

/-- Under `wrap` a tape is a circle: machines whose tapes and data pointers are turned against each
other by whatever distance stay so, and every step of one has the result that it has in the other.
In particular the data pointer counts by its place on the circle only, however far it is from the
tape, though it is never brought back. None of this depends on what has been recorded of loops. -/
theorem after_turned (p : Program) (hw : c.bounds = .wrap) (h0 : 0 < size) :
    (∀ k (m m' : Machine), m.Turned size k m' → ∀ n,
      (m.after c p n).Turned size k (m'.after c p n) ∧
        ((m.after c p n).step c p).Turned size k ((m'.after c p n).step c p)) ∧
    (∀ (m : Machine) (d : Int), m.tape.size = size → d % size = m.dp % size → ∀ n,
      let near := m.after c p n
      let far := after c p { m with dp := d } n
      far = { near with dp := near.dp + (d - m.dp) } ∧
        (far.step c p).result = (near.step c p).result) ∧
    ∀ t : Lookups,
      (∀ k (m m' : Machine), m.Turned size k m' → ∀ n,
        let one := m.afterWith c p t n
        let other := m'.afterWith c p t n
        one.1.Turned size k other.1 ∧ other.2 = one.2 ∧
          (one.1.stepWith c p one.2).1.Turned size k (other.1.stepWith c p other.2).1) ∧
      ∀ (m : Machine) (d : Int), m.tape.size = size → d % size = m.dp % size → ∀ n,
        let near := m.afterWith c p t n
        let far := afterWith c p t { m with dp := d } n
        far = ({ near.1 with dp := near.1.dp + (d - m.dp) }, near.2) ∧
          (far.1.stepWith c p far.2).1.result = (near.1.stepWith c p near.2).1.result := by
  have dvd {d e : Int} (hd : d % size = e % size) : (size : Int) ∣ d - e :=
    Int.dvd_of_emod_eq_zero (Int.emod_eq_emod_iff_emod_sub_eq_zero.1 hd)
  refine ⟨?_, ?_, fun t => ⟨?_, ?_⟩⟩
  · intro k m m' h n
    have hn := h.after (c := c) (p := p) hw h0 n
    exact ⟨hn, hn.step hw h0⟩
  · intro m d hsize hd n near far
    have hn := (Turned.of_dvd hsize (dvd hd)).after (c := c) (p := p) hw h0 n
    exact ⟨hn.eq_of_dvd (dvd hd), (hn.step hw h0).result⟩
  · intro k m m' h n one other
    obtain ⟨hn, ht⟩ := h.afterWith (c := c) (p := p) hw h0 t n
    refine ⟨hn, ht, ?_⟩
    rw [show other.2 = one.2 from ht]
    exact (hn.stepWith hw h0 one.2).1
  · intro m d hsize hd n near far
    obtain ⟨hn, ht⟩ := (Turned.of_dvd hsize (dvd hd)).afterWith (c := c) (p := p) hw h0 t n
    refine ⟨Prod.ext (hn.eq_of_dvd (dvd hd)) ht, ?_⟩
    rw [show far.2 = near.2 from ht]
    exact (hn.stepWith hw h0 near.2).1.result

theorem turned_far_from_tape :
    let c : Config := { memorySize := 3, bounds := .wrap }
    let p := Program.ofList ['<', '[', '>', ',', ']', '.']
    let m : Machine := { dp := -6, tape := ⟨#[4, 0, 1]⟩, port := .ofInput [7, 0] }
    let m' : Machine := { dp := -1, tape := ⟨#[0, 1, 4]⟩, port := .ofInput [7, 0] }
    let far : Machine := { m with dp := 3000000000 }
    let t : Lookups := ⟨fun _ => none, fun _ => some 0⟩
    c.bounds = .wrap ∧ 0 < 3 ∧ m.Turned 3 5 m' ∧ m.tape.size = 3 ∧
      far.dp % (3 : ℕ) = m.dp % (3 : ℕ) ∧
      (m.after c p 8).Turned 3 5 (m'.after c p 8) ∧
      ((m.after c p 8).step c p).Turned 3 5 ((m'.after c p 8).step c p) ∧
      far.after c p 8 = { m.after c p 8 with dp := 3000000001 } ∧
      (m.afterWith c p t 8).1.Turned 3 5 (m'.afterWith c p t 8).1 ∧
      (m'.afterWith c p t 8).2 = (m.afterWith c p t 8).2 := by
  intro c p m m' far t
  have h : m.Turned 3 5 m' := ⟨rfl, rfl, rfl, rfl, rfl, rfl, by decide⟩
  have hd : far.dp % (3 : ℕ) = m.dp % (3 : ℕ) := by decide
  obtain ⟨hturned, hfar, hmaps⟩ := after_turned (c := c) p rfl (show 0 < 3 by decide)
  obtain ⟨hafter, hstep⟩ := hturned 5 m m' h 8
  obtain ⟨hwith, hsame, -⟩ := (hmaps t).1 5 m m' h 8
  refine ⟨rfl, by decide, h, rfl, hd, hafter, hstep, ?_, hwith, hsame⟩
  rw [(hfar m 3000000000 rfl hd 8).1, show (m.after c p 8).dp = -5 by decide]
  rfl

end Machine

end TapeMachine
