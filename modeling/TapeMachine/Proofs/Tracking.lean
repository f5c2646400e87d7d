import TapeMachine.Proofs.Interpreter
import TapeMachine.Proofs.Matching
import TapeMachine.Proofs.Movement

namespace TapeMachine

namespace LoopTable

variable {t t' : LoopTable} {p : Program} {o c : Int}

/-- A table without false entries. -/
def Sound (t : LoopTable) (p : Program) : Prop := ∀ o c, (o, c) ∈ t.recorded → p.HasLoop o c

theorem sound_empty (p : Program) : Sound {} p := fun _ _ h => nomatch h

theorem sound_loops (p : Program) : p.loops.Sound p := fun _ _ h => Program.mem_loops.1 h

/-- Looking up a loop adds its entry, unless it was there, and no other. -/
theorem mem_of_resolve (h : t.resolve p o = .ok (c, t')) (a b : Int) :
    (a, b) ∈ t'.recorded ↔ (a, b) = (o, c) ∨ (a, b) ∈ t.recorded := by
  unfold resolve at h
  split at h
  · rename_i hc
    cases h
    have hm := mem_of_closer? hc
    constructor
    · exact Or.inr
    · rintro (he | he)
      · rwa [he]
      · exact he
  · split at h <;> cases h
    exact List.mem_cons

theorem hasLoop_of_resolve (ht : t.Sound p) (hi : p.instructionAt o = .ok .openLoop) (ho : 0 ≤ o)
    (h : t.resolve p o = .ok (c, t')) : p.HasLoop o c := by
  unfold resolve at h
  split at h
  · rename_i hc
    cases h
    exact ht _ _ (mem_of_closer? hc)
  · split at h <;> rename_i hc <;> cases h
    exact (Program.closerOf_eq_ok_iff hi ho).1 hc

theorem Sound.resolve (ht : t.Sound p) (hi : p.instructionAt o = .ok .openLoop) (ho : 0 ≤ o)
    (h : t.resolve p o = .ok (c, t')) : t'.Sound p := by
  intro a b hab
  obtain heq | hab := (mem_of_resolve h a b).1 hab
  · cases heq
    exact hasLoop_of_resolve ht hi ho h
  · exact ht a b hab

theorem hasLoop_of_openerOf (ht : t.Sound p) (h : t.openerOf c = .ok o) : p.HasLoop o c := by
  unfold openerOf at h
  split at h <;> rename_i hc <;> cases h
  exact ht _ _ (mem_of_opener? hc)

theorem exists_resolve_of_hasLoop (ht : t.Sound p) (h : p.HasLoop o c) :
    ∃ t', t.resolve p o = .ok (c, t') := by
  have hc := (Program.closerOf_eq_ok_iff h.instructionAt_opener h.nonneg).2 h
  unfold resolve
  split
  · rename_i d hd
    exact ⟨t, by rw [(ht _ _ (mem_of_closer? hd)).closer_unique h]⟩
  · exact ⟨t.record o c, by rw [hc]⟩

theorem resolve_of_not_hasLoop (ht : t.Sound p) (hi : p.instructionAt o = .ok .openLoop)
    (ho : 0 ≤ o) (h : ∀ c, ¬ p.HasLoop o c) : t.resolve p o = .error (.unmatchedOpener o) := by
  unfold resolve
  split
  · rename_i d hd
    exact absurd (ht _ _ (mem_of_closer? hd)) (h d)
  · split <;> rename_i hc
    · exact absurd ((Program.closerOf_eq_ok_iff hi ho).1 hc) (h _)
    · rw [Program.closerOf_eq_error ho hc]

end LoopTable

/-- The table has only loops of the text, and all those around the instruction pointer, whose
openers were passed to come where it is. -/
structure Machine.Tracked (m : Machine) (p : Program) : Prop where
  nonneg : 0 ≤ m.ip
  le_size : m.ip ≤ p.size
  sound : m.loops.Sound p
  complete : ∀ o c, p.HasLoop o c → o < m.ip → m.ip ≤ c → (o, c) ∈ m.loops.recorded

namespace Machine.Tracked

variable {c : Config} {p : Program} {m m' : Machine} {e : Effect}

theorem of_fresh (hip : m.ip = 0) (hl : m.loops = {}) (p : Program) : m.Tracked p where
  nonneg := hip ▸ Int.le_refl 0
  le_size := hip ▸ Int.natCast_nonneg _
  sound := hl ▸ LoopTable.sound_empty p
  complete _ _ h ho _ := absurd (hip ▸ ho) (Int.not_lt.2 h.nonneg)

theorem step (h : m.Tracked p) (hh : m.hasHalted p = false) (hs : m.step c p = .done e m') :
    m'.Tracked p := by
  have hip := h.nonneg
  have hlt : m.ip < p.size := by simpa [hasHalted] using hh
  -- one position on: no loop is newly entered, unless an opener was executed
  have next {o d : Int} (hl : p.HasLoop o d) (ho : o < m.ip + 1) (hd : m.ip + 1 ≤ d)
      (hi : p.instructionAt m.ip ≠ .ok .openLoop) : (o, d) ∈ m.loops.recorded := by
    have hne : o ≠ m.ip := fun he => hi (he ▸ hl.instructionAt_opener)
    exact h.complete o d hl (by omega) (by omega)
  cases moves_of_step hs with
  | onward hi ho hc hj hl hip' =>
    have hi' : p.instructionAt m.ip ≠ .ok .openLoop := by simpa [hi] using ho
    exact ⟨by omega, by omega, hl ▸ h.sound, fun o d hd ho hc =>
      hl ▸ next hd (hip' ▸ ho) (hip' ▸ hc) hi'⟩
  | enter closer v hi he hr hv hne hj hip' =>
    have hloop := LoopTable.hasLoop_of_resolve h.sound hi hip hr
    have hmem := LoopTable.mem_of_resolve hr
    refine ⟨by omega, by omega, h.sound.resolve hi hip hr, fun o d hd ho hc => (hmem o d).2 ?_⟩
    by_cases heq : o = m.ip
    · subst heq
      exact .inl (by rw [hd.closer_unique hloop])
    · exact .inr (h.complete o d hd (by omega) (by omega))
  | skip closer hi he hr hv hj hip' =>
    have hloop := LoopTable.hasLoop_of_resolve h.sound hi hip hr
    have hmem := LoopTable.mem_of_resolve hr
    have hsize := hloop.lt_size
    have hlt := hloop.lt
    refine ⟨by omega, by omega, h.sound.resolve hi hip hr,
      fun o d hd ho hc => (hmem o d).2 (.inr ?_)⟩
    -- a loop around the end of this one is around all of it
    have hne : o ≠ m.ip := by
      rintro rfl
      have := hd.closer_unique hloop
      omega
    have hin : ¬ m.ip < o := fun hlo => by
      have := hloop.nested hd hlo (by omega)
      omega
    exact h.complete o d hd (by omega) (by omega)
  | leave hi he hv hj hl hip' =>
    have hi' : p.instructionAt m.ip ≠ .ok .openLoop := by simp [hi]
    exact ⟨by omega, by omega, hl ▸ h.sound, fun o d hd ho hc =>
      hl ▸ next hd (hip' ▸ ho) (hip' ▸ hc) hi'⟩
  | again opener v hi he ho hv hne hj hl hip' =>
    have hloop := LoopTable.hasLoop_of_openerOf h.sound ho
    have hnn := hloop.nonneg
    have hlt := hloop.lt
    refine ⟨by omega, by omega, hl ▸ h.sound, fun o d hd ho hc => hl ▸ ?_⟩
    by_cases heq : o = opener
    · subst heq
      obtain rfl := hd.closer_unique hloop
      exact h.complete o m.ip hd hlt (Int.le_refl _)
    · -- a loop around the opener is around the closer as well
      have hin := hd.nested hloop (by omega) (by omega)
      exact h.complete o d hd (by omega) (by omega)

theorem failed (h : m.Tracked p) {f : Fault} (hs : m.step c p = .failed f m') : m'.Tracked p := by
  have hip := (fails_of_step hs).ip_eq
  have complete {o d : Int} (hl : p.HasLoop o d) (ho : o < m'.ip) (hd : m'.ip ≤ d) :
      (o, d) ∈ m.loops.recorded := h.complete o d hl (hip ▸ ho) (hip ▸ hd)
  obtain hl | ⟨hi, closer, hr⟩ := (fails_of_step hs).loops
  · exact ⟨hip ▸ h.nonneg, hip ▸ h.le_size, hl ▸ h.sound, fun o d hd ho hc =>
      hl ▸ complete hd ho hc⟩
  · have hmem := LoopTable.mem_of_resolve hr
    exact ⟨hip ▸ h.nonneg, hip ▸ h.le_size, h.sound.resolve hi h.nonneg hr, fun o d hd ho hc =>
      (hmem o d).2 (.inr (complete hd ho hc))⟩

/-- The way back from a closer leads to the opener of its loop. -/
theorem opener?_eq (h : m.Tracked p) : m.loops.opener? m.ip = p.loops.opener? m.ip := by
  have hiff (o : Int) : m.loops.opener? m.ip = some o ↔ p.loops.opener? m.ip = some o := by
    rw [LoopTable.opener?_eq_some_iff h.sound,
      LoopTable.opener?_eq_some_iff (LoopTable.sound_loops p), Program.mem_loops]
    exact ⟨h.sound o m.ip, fun hl => h.complete o m.ip hl hl.lt (Int.le_refl _)⟩
  exact Option.ext hiff

end Machine.Tracked

theorem Run.tracked_forward {p : Program} {r : Run} (hr : r.machine.Tracked p) (c : Config)
    (n : ℕ) : (r.forward c p n).run.machine.Tracked p := by
  rw [← p.forward_interpreter]
  exact Interpreter.forward_induction (I := fun r => r.machine.Tracked p) hr
    (fun _ _ _ h hh hs => h.step hh hs) (fun _ _ _ h _ hs => h.failed hs) n

theorem Machine.Tracked.forward {c : Config} {p : Program} {n : ℕ} {r s : Run}
    (hr : r.machine.Tracked p) (h : r.forward c p n = .running s) : s.machine.Tracked p := by
  have ht := Run.tracked_forward hr c n
  rwa [h] at ht

namespace Run

variable {c : Config} {p : Program} {input : List UInt8} {n : ℕ} {r : Run}

theorem tracked_of_running (h : (Run.start c input).forward c p n = .running r) :
    r.machine.Tracked p :=
  (Machine.Tracked.of_fresh rfl rfl p).forward h

theorem exists_running_of_halted (h : (Run.start c input).forward c p n = .halted r) :
    (Run.start c input).forward c p r.tally.steps = .running r ∧ r.machine.ip = p.size ∧
      (Run.start c input).history c p n = (Run.start c input).history c p r.tally.steps := by
  rw [← p.forward_interpreter] at h
  obtain ⟨k, -, hk, hh, he⟩ := Interpreter.exists_running_of_halted h
  have hsteps : r.tally.steps = k := (Interpreter.steps_of_running hk).trans (Nat.zero_add k)
  rw [p.forward_interpreter] at hk
  have hge : (p.size : Int) ≤ r.machine.ip := by
    simpa [Program.interpreter, Machine.hasHalted] using hh
  rw [hsteps]
  exact ⟨hk, Int.le_antisymm (tracked_of_running hk).le_size hge, he⟩

end Run

end TapeMachine
