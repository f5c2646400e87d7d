import TapeMachine.CommandLine.Console
import TapeMachine.Proofs.Consumption
import TapeMachine.Proofs.Safety

namespace TapeMachine

def fed (more : List UInt8) : Reading := onPort (·.feed more)

theorem fed_nil : fed [] = Reading.same := by
  have hport (q : Port) : q.feed [] = q := by simp only [Port.feed, List.append_nil]
  simp only [fed, onPort, hport]
  rfl

variable {c : Config} {p : Program}

/-- What comes behind the unread bytes makes no difference to an instruction that does not read
past them. -/
theorem Machine.step_fed {m : Machine} {more : List UInt8}
    (h : ∀ i, p.instructionAt m.ip = .ok .read → m.cell c = .ok i → m.port.unread = [] →
      more = []) :
    ((fed more).machine m).step c p = (fed more).step (m.step c p) := by
  by_cases hi : p.instructionAt m.ip = .ok .read
  · cases hc : m.cell c with
    | error f =>
      rw [step_read_of_error hi hc, step_read_of_error (m := (fed more).machine m) hi hc]
      rfl
    | ok i =>
      cases hu : m.port.unread with
      | nil =>
        -- the read would find a byte of `more`, so there is none
        rw [h i hi hc hu, fed_nil, Reading.same_step]
        rfl
      | cons b rest =>
        have hu' : ((fed more).machine m).port.unread = b :: (rest ++ more) := by
          simp only [fed, onPort, Port.feed, hu, List.cons_append]
        rw [step_read_of_cons hi hc hu, step_read_of_cons (m := (fed more).machine m) hi hc hu']
        rfl
  · exact step_onPort rfl (fun _ _ => rfl) hi

namespace Run

variable {r : Run} {more : List UInt8} {i : ℕ}

theorem awaitsByte_of_read (hu : r.machine.port.unread = []) (hh : r.machine.hasHalted p = false)
    (hl : c.limitReached? r.tally.steps = none) (hi : p.instructionAt r.machine.ip = .ok .read)
    (hc : r.machine.cell c = .ok i) : r.awaitsByte c p = true := by
  simp only [awaitsByte, hu, hh, hl, hi, hc]
  rfl

theorem unread_of_awaitsByte (h : r.awaitsByte c p = true) : r.machine.port.unread = [] := by
  simp only [awaitsByte, Bool.and_eq_true, List.isEmpty_iff] at h
  exact h.1.1.1

theorem fed_kept (c : Config) (p : Program) (more : List UInt8) :
    (fed more).Kept (fun r => r.awaitsByte c p = true → more = []) (p.interpreter c)
      (p.interpreter c) where
  hasHalted _ _ := rfl
  limit _ := rfl
  record _ _ := rfl
  stepLimit _ := rfl
  step _ hr hh hl := Machine.step_fed fun _ hi hc hu => hr (awaitsByte_of_read hu hh hl hi hc)

theorem turn_feed (h : r.awaitsByte c p = true → more = []) :
    (r.feed more).turn c p = (fed more).progress (r.turn c p) := by
  rw [← p.turn_interpreter, ← p.turn_interpreter]
  exact ((fed_kept c p more).turn h).1

theorem feed_feed (r : Run) (more rest : List UInt8) :
    (r.feed more).feed rest = r.feed (more ++ rest) := by
  simp only [feed, Port.feed, List.append_assoc]

/-- The byte that was asked for ends the waiting, unless the input has none. -/
theorem awaitsByte_feed_take (input : List UInt8)
    (h : (r.feed (input.take 1)).awaitsByte c p = true) : input.drop 1 = [] := by
  have hu := unread_of_awaitsByte h
  cases input with
  | nil => rfl
  | cons b rest => simp [feed, Port.feed] at hu

end Run

namespace CommandLine

theorem toList_append_extract {shown all : Array UInt8} (h : shown.toList <+: all.toList) :
    shown.toList ++ (all.extract shown.size all.size).toList = all.toList := by
  obtain ⟨more, hmore⟩ := h
  have hdrop : all.toList.drop shown.size = more := by
    rw [← hmore, ← Array.length_toList, List.drop_left]
  rw [Array.toList_extract, List.extract_eq_take_drop, List.take_of_length_le (by simp), hdrop,
    hmore]

/-- The streams show what a run has written and the loops that it has found. With the bytes that
are still to come, it is where a run is that had them all from the start. -/
structure Job.Shows (j : Job) (s : Streams) (q whole : Progress) : Prop where
  progress : (fed s.stdin).progress q = whole
  stdout : s.stdout = q.run.machine.port.written.toList
  stderr : s.stderr = j.progressText .empty q.run.machine.loops

namespace Job

variable {j : Job} {s : Streams} {u r : Run} {t t₁ t₂ : LoopTable}

theorem found_eq {found : List (Int × Int)} (h : found ++ t.recorded = t₁.recorded) :
    t₁.recorded.take (t₁.size - t.size) = found := by
  have hsize : t₁.size - t.size = found.length := by
    rw [LoopTable.size, LoopTable.size, ← h, List.length_append, Nat.add_sub_cancel]
  rw [hsize, ← h, List.take_left]

theorem progressText_append (j : Job) (h : t.recorded <:+ t₁.recorded)
    (h₁ : t₁.recorded <:+ t₂.recorded) :
    j.progressText t t₁ ++ j.progressText t₁ t₂ = j.progressText t t₂ := by
  obtain ⟨found, hf⟩ := h
  obtain ⟨found₁, hf₁⟩ := h₁
  have hf₂ : (found₁ ++ found) ++ t.recorded = t₂.recorded := by rw [List.append_assoc, hf, hf₁]
  unfold progressText
  cases j.verbose with
  | false => rfl
  | true =>
    simp only [if_true, resolvedText, found_eq hf, found_eq hf₁, found_eq hf₂, List.reverse_append,
      List.map_append, String.join_append]

theorem progressText_self (j : Job) (t : LoopTable) : j.progressText t t = "" := by
  unfold progressText
  cases j.verbose with
  | false => rfl
  | true =>
    simp only [if_true, resolvedText, found_eq (List.nil_append t.recorded)]
    rfl

/-- A round from the moment when the byte is there. -/
def told (j : Job) (p : Program) (u : Run) (s : Streams) : Progress × Streams :=
  let next := u.turn j.session.config p
  let written := next.run.machine.port.written
  (next, { s with
    stdout := s.stdout ++ (written.extract u.machine.port.written.size written.size).toList
    stderr := s.stderr ++ j.progressText u.machine.loops next.run.machine.loops })

theorem round_of_awaits (h : u.awaitsByte j.session.config p = true) :
    j.round .streams p u s =
      j.told p (u.feed (s.stdin.take 1)) { s with stdin := s.stdin.drop 1 } := by
  simp only [round, h, if_true]
  rfl

theorem round_of_not_awaits (h : u.awaitsByte j.session.config p = false) :
    j.round .streams p u s = j.told p u s := by
  simp only [round, h]
  rfl

theorem shows_told (h : j.Shows s (.running u) (.running r))
    (ha : u.awaitsByte j.session.config p = true → s.stdin = []) :
    j.Shows (j.told p u s).2 (j.told p u s).1 (r.turn j.session.config p) where
  progress := by
    have hr : u.feed s.stdin = r := Progress.running.inj h.progress
    rw [← hr, Run.turn_feed ha]
    rfl
  stdout := by
    have hu : s.stdout = u.machine.port.written.toList := h.stdout
    dsimp only [told]
    rw [hu, toList_append_extract (u.precedes_turn j.session.config p).written]
  stderr := by
    -- the loops of this turn are told behind those that were told before
    have hgrown := u.recorded_forward j.session.config p 1
    rw [Run.forward_one] at hgrown
    have hu : s.stderr = j.progressText .empty u.machine.loops := h.stderr
    dsimp only [told]
    rw [hu]
    exact j.progressText_append List.nil_suffix hgrown

/-- A byte that goes from the input to the port leaves the run with the whole input where it is. -/
theorem shows_feed (h : j.Shows s (.running u) (.running r)) :
    j.Shows { s with stdin := s.stdin.drop 1 } (.running (u.feed (s.stdin.take 1)))
      (.running r) where
  progress := by
    have hr : u.feed s.stdin = r := Progress.running.inj h.progress
    change Progress.running ((u.feed (s.stdin.take 1)).feed (s.stdin.drop 1)) = .running r
    rw [Run.feed_feed, List.take_append_drop, hr]
  stdout := h.stdout
  stderr := h.stderr

theorem shows_round (h : j.Shows s (.running u) (.running r)) :
    j.Shows (j.round .streams p u s).2 (j.round .streams p u s).1 (r.turn j.session.config p) := by
  cases ha : u.awaitsByte j.session.config p with
  | true =>
    rw [round_of_awaits ha]
    exact shows_told (shows_feed h) (Run.awaitsByte_feed_take s.stdin)
  | false =>
    rw [round_of_not_awaits ha]
    exact shows_told h fun hu => absurd hu (by simp [ha])

theorem rounds_succ (n : ℕ) :
    j.rounds .streams p (n + 1) u s = match j.round .streams p u s with
      | (.running u, s) => j.rounds .streams p n u s
      | ended => ended := by
  rw [rounds]
  change StateT.bind (j.round .streams p u) _ s = _
  unfold StateT.bind
  obtain ⟨q, s⟩ := j.round .streams p u s
  cases q <;> rfl

theorem shows_rounds (n : ℕ) (h : j.Shows s (.running u) (.running r)) :
    j.Shows (j.rounds .streams p n u s).2 (j.rounds .streams p n u s).1
      (r.forward j.session.config p n) := by
  induction n generalizing s u r with
  | zero => exact h
  | succ n ih =>
    have hround := shows_round (p := p) h
    rw [rounds_succ, Run.forward]
    generalize j.round .streams p u s = out at hround
    obtain ⟨q, t⟩ := out
    have hq := hround.progress
    cases q with
    | running v =>
      rw [← hq] at hround ⊢
      exact ih hround
    | halted v | failed f v =>
      -- the run has ended, and no byte is asked for any more
      rw [← hq] at hround ⊢
      exact hround

theorem ending_halted (hv : j.verbose = false) (clock : Clock) (r : Run) :
    j.ending clock (.halted r) = some (0, j.session.epilogue clock r) := by
  simp [ending, hv]

theorem ending_fed (j : Job) (clock : Clock) (more : List UInt8) (q : Progress) :
    j.ending clock ((fed more).progress q) = j.ending clock q := by
  cases q <;> rfl

theorem conclude_streams (j : Job) (clock : Clock) (q : Progress) (s : Streams) :
    j.conclude .streams clock q s = ((j.ending clock q).map (·.1),
      { s with stderr := s.stderr ++ (j.ending clock q).elim "" (·.2) }) := by
  unfold conclude
  cases j.ending clock q with
  | none =>
    rw [Option.elim_none, String.append_empty]
    rfl
  | some told => rfl

theorem serve_streams (j : Job) {clock : Clock} {n : ℕ} {input : List UInt8} {whole : Progress}
    {out : Option ℕ × Streams} (hwhole : j.session.forward n (j.session.start input) = whole)
    (hout : (j.serve .streams clock n).run { stdin := input } = out) :
    out.1 = (j.ending clock whole).map (·.1) ∧
      out.2.stdout = whole.run.machine.port.written.toList ∧
      out.2.stderr = j.progressText .empty whole.run.machine.loops ++
        (j.ending clock whole).elim "" (·.2) := by
  have hstart : j.Shows { stdin := input } (.running (j.session.start []))
      (.running (j.session.start input)) := ⟨rfl, rfl, (j.progressText_self .empty).symm⟩
  have hshows := shows_rounds (p := j.session.program) n hstart
  change j.conclude .streams clock
    (j.rounds .streams j.session.program n (j.session.start []) { stdin := input }).1
    (j.rounds .streams j.session.program n (j.session.start []) { stdin := input }).2 = out at hout
  generalize j.rounds .streams j.session.program n (j.session.start []) { stdin := input } = shown
    at hshows hout
  obtain ⟨q, s⟩ := shown
  have hq : (fed s.stdin).progress q = whole := hshows.progress.trans hwhole
  have hstdout : s.stdout = whole.run.machine.port.written.toList := by
    rw [← hq, hshows.stdout]
    cases q <;> rfl
  have hstderr : s.stderr = j.progressText .empty whole.run.machine.loops := by
    rw [← hq, hshows.stderr]
    cases q <;> rfl
  rw [conclude_streams, ← ending_fed j clock s.stdin, hq, hstderr] at hout
  rw [← hout]
  exact ⟨rfl, hstdout, rfl⟩

/-- The transcript of the run that has all of the input is what the streams show when the job is
served. -/
theorem transcript_forward (j : Job) (clock : Clock) (n : ℕ) (input : List UInt8) :
    let out := (j.serve .streams clock n).run { stdin := input }
    j.transcript clock (j.session.forward n (j.session.start input)) =
      out.1.map fun exitCode => ⟨exitCode, out.2.stdout, out.2.stderr⟩ := by
  intro out
  obtain ⟨hcode, hstdout, hstderr⟩ := j.serve_streams
    (rfl : j.session.forward n (j.session.start input) = _)
    (rfl : (j.serve .streams clock n).run { stdin := input } = out)
  rw [hcode, hstdout, hstderr, transcript, Option.map_map]
  cases j.ending clock (j.session.forward n (j.session.start input)) <;> rfl

end Job

def Choices.settings (c : Choices) : Settings where
  memorySize := c.memorySize.val
  eof := c.eof.name
  bounds := c.bounds.name
  maxSteps := c.maxSteps.map (↑)
  reportStats := c.stats

end CommandLine

namespace CommandLine

end CommandLine

end TapeMachine
