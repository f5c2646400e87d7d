import TapeMachine.Proofs.Concatenation
import TapeMachine.Proofs.Lockstep

namespace TapeMachine

def Run.behind (r : Run) : Reading where
  machine m := {
    ip := r.machine.ip + m.ip
    dp := m.dp
    tape := m.tape
    loops := r.machine.loops.behind r.machine.ip m.loops
    port := {
      unread := m.port.unread
      consumed := r.machine.port.consumed + m.port.consumed
      written := r.machine.port.written ++ m.port.written } }
  tally t := {
    steps := r.tally.steps + t.steps
    bytesRead := r.tally.bytesRead + t.bytesRead
    bytesWritten := r.tally.bytesWritten + t.bytesWritten }
  effect e := { e with jumpTarget := e.jumpTarget.map (r.machine.ip + ·) }
  fault := Fault.shift r.machine.ip

/-- A run at the start of a program with the data pointer, the tape and the unread bytes of `r`. -/
def Run.afresh (r : Run) : Run where
  machine := { dp := r.machine.dp, tape := r.machine.tape, port := .ofInput r.machine.port.unread }

namespace Run

variable {c : Config} {p q : Program} {r s : Run} {m : Machine}

theorem behind_afresh (r : Run) : r.behind.run r.afresh = r := by
  obtain ⟨⟨ip, dp, tape, ⟨recorded⟩, ⟨unread, consumed, written⟩⟩, tally⟩ := r
  simp [Reading.run, behind, afresh, LoopTable.behind, Port.ofInput]

theorem advance_behind (r : Run) (m : Machine) :
    (r.behind.machine m).advance = r.behind.machine m.advance := by
  simp [behind, Machine.advance, Int.add_assoc]

theorem jump_behind (r : Run) (m : Machine) (k : Int) :
    (r.behind.machine m).jump (r.machine.ip + k) = r.behind.machine (m.jump k) := by
  simp [behind, Machine.jump, Int.add_assoc]

theorem put_behind (r : Run) (m : Machine) (b : UInt8) :
    { r.behind.machine m with port := (r.behind.machine m).port.put b } =
      r.behind.machine { m with port := m.port.put b } := by
  simp [behind, Port.put]

theorem take?_behind (r : Run) (m : Machine) : (r.behind.machine m).port.take? =
    m.port.take?.map fun t => (t.1, (r.behind.machine { m with port := t.2 }).port) := by
  unfold Port.take?
  rw [show (r.behind.machine m).port.unread = m.port.unread from rfl]
  cases m.port.unread <;> rfl

theorem cell_behind (r : Run) (m : Machine) : (r.behind.machine m).cell c = match m.cell c with
    | .ok i => .ok i
    | .error f => .error (f.shift r.machine.ip) := by
  unfold Machine.cell
  rw [show (r.behind.machine m).tape = m.tape from rfl,
    show (r.behind.machine m).dp = m.dp from rfl]
  cases c.bounds.cell m.tape.size m.dp with
  | ok i => rfl
  | error f => cases f <;> rfl

theorem atCell_behind {act act' : ℕ → Machine → Step}
    (h : ∀ i tape,
      act' i (r.behind.machine { m with tape }) = r.behind.step (act i { m with tape })) :
    (r.behind.machine m).atCell c act' = r.behind.step (m.atCell c act) := by
  refine Reading.atCell_eq rfl (fun i hi => ⟨?_, h i (m.tape.cover i)⟩) fun f hf => ?_
  · rw [cell_behind, hi]
  · rw [cell_behind, hf]
    rfl

theorem perform_behind {i : Instruction} (ho : i ≠ .openLoop) (hc : i ≠ .closeLoop) :
    (r.behind.machine m).perform c (p ++ q) i = r.behind.step (m.perform c q i) := by
  have advance (e : Effect) (he : e.jumpTarget = none) (m : Machine) :
      Step.done e (r.behind.machine m).advance = r.behind.step (.done e m.advance) := by
    obtain ⟨k, j, w, b⟩ := e
    obtain rfl : j = none := he
    rw [advance_behind]
    rfl
  cases i with
  | moveRight => exact advance _ rfl { m with dp := m.dp + 1 }
  | moveLeft => exact advance _ rfl { m with dp := m.dp - 1 }
  | increment =>
    simp only [Machine.perform]
    refine atCell_behind fun i tape => ?_
    exact advance _ rfl (Machine.store { m with tape } i (tape.read i + 1))
  | decrement =>
    simp only [Machine.perform]
    refine atCell_behind fun i tape => ?_
    exact advance _ rfl (Machine.store { m with tape } i (tape.read i - 1))
  | write =>
    simp only [Machine.perform]
    refine atCell_behind fun i tape => ?_
    rw [put_behind]
    exact advance _ rfl { m with tape, port := m.port.put (tape.read i) }
  | read =>
    simp only [Machine.perform]
    refine atCell_behind fun i tape => ?_
    rw [take?_behind]
    dsimp only
    cases m.port.take? with
    | some t => exact advance _ rfl (Machine.store { m with tape, port := t.2 } i t.1)
    | none =>
      cases c.eof with
      | error => rfl
      | zero => exact advance _ rfl (Machine.store { m with tape } i 0)
      | unchanged => exact advance _ rfl { m with tape }
  | openLoop => exact absurd rfl ho
  | closeLoop => exact absurd rfl hc

/-- Behind `p` the machine does with `q` what it does with `q` alone. -/
theorem step_behind (h₀ : r.machine.loops.Sound p) (hip : r.machine.ip = p.size)
    (hm : m.Tracked q) (hh : m.hasHalted q = false) :
    (r.behind.machine m).step c (p ++ q) = r.behind.step (m.step c q) := by
  -- inside `q` both machines stand at the same symbol
  obtain ⟨k, hk⟩ := Int.eq_ofNat_of_zero_le hm.nonneg
  have hlt : k < q.size := by simpa [Machine.hasHalted, hk] using hh
  have hip' : (r.behind.machine m).ip = p.size + k := by rw [← hip, ← hk]; rfl
  cases hi : q.instructionAt m.ip with
  | error f =>
    rw [Machine.step_of_error hi, Machine.step_of_error (f := f.shift p.size), ← hip]
    · rfl
    · rw [hip']
      exact Program.instructionAt_append_of_error hlt (hk ▸ hi)
  | ok i =>
    have hi' : (p ++ q).instructionAt (r.behind.machine m).ip = .ok i := by
      rw [hip']
      exact Program.instructionAt_append_of_ok hlt (hk ▸ hi)
    rw [Machine.step_eq_perform hi, Machine.step_eq_perform hi']
    cases i with
    | openLoop =>
      have hr := LoopTable.resolve_behind (t := m.loops) h₀ q k
      rw [← hip, ← hk] at hr
      simp only [Machine.perform]
      rw [show (r.behind.machine m).loops.resolve (p ++ q) (r.behind.machine m).ip = _ from hr]
      cases m.loops.resolve q m.ip with
      | error f => rfl
      | ok t =>
        obtain ⟨closer, loops⟩ := t
        refine atCell_behind (m := { m with loops }) fun i tape => ?_
        dsimp only
        have hread : (r.behind.machine { m with tape, loops }).tape.read i = tape.read i := rfl
        rw [jump_behind, advance_behind, hread]
        split <;> rfl
    | closeLoop =>
      have ho := LoopTable.openerOf_behind (t := m.loops) h₀ hm.nonneg
      rw [← hip] at ho
      simp only [Machine.perform]
      refine atCell_behind fun i tape => ?_
      rw [show (r.behind.machine { m with tape }).loops.openerOf
        (r.behind.machine { m with tape }).ip = _ from ho, advance_behind]
      dsimp only
      rw [show (r.behind.machine { m with tape }).tape.read i = tape.read i from rfl]
      split
      · rfl
      · cases m.loops.openerOf m.ip with
        | error f => rfl
        | ok opener => exact congrArg (Step.done _) (jump_behind r { m with tape } opener)
    | _ => exact perform_behind (by decide) (by decide)

theorem behind_kept (hc : c.maxSteps = none) (h₀ : r.machine.loops.Sound p)
    (hip : r.machine.ip = p.size) : r.behind.Kept (·.machine.Tracked q)
      (q.interpreter c) ((p ++ q).interpreter c) where
  hasHalted s _ := by simp [Program.interpreter, Machine.hasHalted, behind, hip]
  limit t := by simp only [Program.interpreter, Config.limitReached?, hc]
  record t e := by
    simp only [behind, Tally.record, Nat.add_assoc]
    rfl
  stepLimit _ := rfl
  step _ hs hh _ := step_behind h₀ hip hs hh

end Run

theorem Machine.step_append_of_done {c : Config} {p : Program} {m m' : Machine} {e : Effect}
    (hm : m.Tracked p) (hh : m.hasHalted p = false) (h : m.step c p = .done e m') (q : Program) :
    m.step c (p ++ q) = .done e m' := by
  have hlt : m.ip < p.size := by simpa [hasHalted] using hh
  obtain ⟨i, hi, hp⟩ := exists_perform_of_step_done h
  have hi' : (p ++ q).instructionAt m.ip = .ok i :=
    (Program.instructionAt_append_left hm.nonneg hlt).trans hi
  rw [step_eq_perform hi', ← hp]
  -- only the search for a closer reads symbols other than the one under the pointer
  cases i with
  | openLoop =>
    simp only [perform] at hp ⊢
    cases hr : m.loops.resolve p m.ip with
    | error f =>
      rw [hr] at hp
      cases hp
    | ok t => rw [LoopTable.resolve_append_of_ok hi hm.nonneg hr]
  | _ => rfl

theorem append_kept (c : Config) (p q : Program) : Reading.same.Kept
    (fun s => s.machine.Tracked p ∧ s.machine.hasHalted p = false ∧
      ∃ e m, s.machine.step c p = .done e m) (p.interpreter c) ((p ++ q).interpreter c) where
  hasHalted s hs := by
    obtain ⟨-, hh, -⟩ := hs
    have hlt : s.machine.ip < p.size := by simpa [Machine.hasHalted] using hh
    simp only [Program.interpreter, Machine.hasHalted, Program.size_append, Reading.same, id,
      decide_eq_decide]
    omega
  limit _ := rfl
  record _ _ := rfl
  stepLimit _ := rfl
  step s hs hh _ := by
    obtain ⟨ht, -, e, m, hd⟩ := hs
    have hd' : s.machine.step c (p ++ q) = .done e m := Machine.step_append_of_done ht hh hd q
    simp only [Program.interpreter, Reading.same, id, hd, hd']
    rfl

theorem forward_append_of_running {c : Config} {p : Program} {input : List UInt8} {n : ℕ} {r : Run}
    (h : (Run.start c input).forward c p n = .running r) (q : Program) :
    (Run.start c input).forward c (p ++ q) n = .running r ∧
    (Run.start c input).history c (p ++ q) n = (Run.start c input).history c p n := by
  rw [← p.forward_interpreter] at h
  obtain ⟨hforward, hhistory⟩ := (append_kept c p q).lockstep (r := .start c input) n
    fun i hi s hs => by
      obtain ⟨s', e, m, hs', hh, hd⟩ := Interpreter.exists_step_of_running h hi
      cases hs'.symm.trans hs
      exact ⟨Run.tracked_of_running (p.forward_interpreter c _ i ▸ hs), hh, e, m, hd⟩
  rw [h, Program.forward_interpreter] at hforward
  exact ⟨hforward, hhistory.trans (List.map_id _)⟩

/-- From the end of `p` on, `p ++ q` runs like `q` behind all that `p` did. -/
theorem forward_behind {c : Config} (hc : c.maxSteps = none) {p : Program} {r : Run}
    (hs : r.machine.loops.Sound p) (hip : r.machine.ip = p.size) (q : Program) (j : ℕ) :
    r.forward c (p ++ q) j = r.behind.progress (r.afresh.forward c q j) ∧
    r.history c (p ++ q) j = (r.afresh.history c q j).map r.behind.executed := by
  have hstart : r.afresh.machine.Tracked q := .of_fresh rfl rfl q
  have hk := (Run.behind_kept (q := q) hc hs hip).lockstep (r := r.afresh) j
    fun i _ s hs => hstart.forward (q.forward_interpreter c _ i ▸ hs)
  rwa [Run.behind_afresh, Program.forward_interpreter, Program.forward_interpreter] at hk

/-- If `p` halts, then `p ++ q` runs like `p` up to the end of `p`, and from there like `q` alone
on the tape and the input that `p` left, with all positions moved behind `p`. -/
theorem forward_append (c : Config) (hc : c.maxSteps = none) (p q : Program) (input : List UInt8)
    (n : ℕ) (r : Run) (h : (Run.start c input).forward c p n = .halted r) :
    (Run.start c input).forward c (p ++ q) r.tally.steps = .running r ∧
    r.machine.ip = p.size ∧
    (Run.start c input).history c (p ++ q) r.tally.steps = (Run.start c input).history c p n ∧
    ∀ j, (Run.start c input).forward c (p ++ q) (r.tally.steps + j) =
        r.behind.progress (r.afresh.forward c q j) ∧
      (Run.start c input).history c (p ++ q) (r.tally.steps + j) =
        (Run.start c input).history c p n ++ (r.afresh.history c q j).map r.behind.executed := by
  obtain ⟨hk, hip, he⟩ := Run.exists_running_of_halted h
  obtain ⟨hmid, hhist⟩ := forward_append_of_running hk q
  rw [he, hhist]
  refine ⟨hmid, hip, rfl, ?_⟩
  intro j
  obtain ⟨hforward, hhistory⟩ := forward_behind hc (Run.tracked_of_running hk).sound hip q j
  constructor
  · rw [Run.forward_add, hmid]
    exact hforward
  · have hmid' := hmid
    rw [← Program.forward_interpreter] at hmid'
    have hadd := Interpreter.history_add hmid' j
    rw [← hhist, ← hhistory]
    exact hadd

theorem append_read_loop :
    let c : Config := { memorySize := 1 }
    let p := Program.ofList [',', '[', ',', ']']
    let q := Program.ofList [']', '[', ',', ']']
    let r := ((Run.start c [1, 0, 2]).forward c p 6).run
    (Run.start c [1, 0, 2]).forward c p 6 = .halted r ∧
      (Run.start c [1, 0, 2]).forward c (p ++ q) r.tally.steps = .running r ∧
      (Run.start c [1, 0, 2]).forward c (p ++ q) (r.tally.steps + 3) =
        r.behind.progress (r.afresh.forward c q 3) := by
  intro c p q r
  have hr : (Run.start c [1, 0, 2]).forward c p 6 = .halted r := by decide
  obtain ⟨hmid, -, -, hafter⟩ := forward_append c rfl p q [1, 0, 2] 6 r hr
  exact ⟨hr, hmid, (hafter 3).1⟩

end TapeMachine
