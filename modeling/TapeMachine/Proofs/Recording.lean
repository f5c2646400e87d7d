import TapeMachine.Proofs.Tracking
import Mathlib.Data.Finset.Card
import Mathlib.Data.List.Perm.Subperm

namespace TapeMachine

/-- There are at most as many loops as openers, those that were open before included. -/
theorem length_pairsWithin_le (opened : List Int) (i : Int) (text : List Char) :
    (pairsWithin opened i text).length ≤ opened.length + text.count '[' := by
  induction text generalizing opened i with
  | nil => exact Nat.zero_le _
  | cons s text ih =>
    by_cases ho : s = '['
    · have h := ih (i :: opened) (i + 1)
      simp only [pairsWithin, ho, if_true, List.count_cons_self, List.length_cons] at h ⊢
      omega
    · have hcount : (s :: text).count '[' = text.count '[' := List.count_cons_of_ne ho
      rw [hcount]
      by_cases hc : s = ']'
      · subst hc
        cases opened with
        | nil => simpa only [pairsWithin, ho, if_false, if_true] using ih [] (i + 1)
        | cons top opened =>
          have h := ih opened (i + 1)
          simp only [pairsWithin, ho, if_false, if_true, List.length_cons]
          omega
      · simpa only [pairsWithin, ho, hc, if_false] using ih opened (i + 1)

theorem Program.size_loops_le (p : Program) : p.loops.size ≤ p.toList.count '[' := by
  have h := length_pairsWithin_le [] 0 p.toList
  rw [List.length_nil, Nat.zero_add] at h
  exact h

namespace LoopTable

variable {t t' : LoopTable} {p : Program} {o c : Int}

def keys (t : LoopTable) : List Int := t.recorded.map Prod.fst

theorem contains_iff_mem_keys : t.contains o = true ↔ o ∈ t.keys := by
  simp [contains, closer?, keys]

theorem resolve_cases (h : t.resolve p o = .ok (c, t')) :
    (o ∈ t.keys ∧ t' = t) ∨ (o ∉ t.keys ∧ t' = t.record o c) := by
  rw [← contains_iff_mem_keys, contains]
  unfold resolve at h
  split at h <;> rename_i hc
  · cases h
    exact .inl ⟨by rw [hc]; rfl, rfl⟩
  · split at h <;> cases h
    exact .inr ⟨by simp [hc], rfl⟩

theorem suffix_of_resolve (h : t.resolve p o = .ok (c, t')) : t.recorded <:+ t'.recorded := by
  obtain ⟨-, rfl⟩ | ⟨-, rfl⟩ := resolve_cases h
  · exact List.suffix_refl _
  · exact List.suffix_cons _ _

theorem Sound.size_le (ht : t.Sound p) (hk : t.keys.Nodup) : t.size ≤ p.toList.count '[' := by
  have hsub : t.recorded ⊆ p.loops.recorded := fun l hl => Program.mem_loops.2 (ht l.1 l.2 hl)
  calc t.size ≤ p.loops.size := (List.subperm_of_subset hk.of_map hsub).length_le
    _ ≤ p.toList.count '[' := p.size_loops_le

end LoopTable

namespace Program.HasLoop

variable {p : Program} {o c : Int}

theorem symbolAt_opener (h : p.HasLoop o c) : p.symbolAt o = .ok '[' := by
  obtain ⟨a, b, rfl, rfl, h⟩ := h
  rw [symbolAt_natCast, h.opener]

theorem symbolAt_closer (h : p.HasLoop o c) : p.symbolAt c = .ok ']' := by
  obtain ⟨a, b, rfl, rfl, h⟩ := h
  rw [symbolAt_natCast, h.closer]

end Program.HasLoop

def Run.openers (es : List Executed) : List Int :=
  (es.filter fun a => a.effect.instruction = .openLoop).map fun a => a.before.ip

namespace Machine

variable {c : Config} {p : Program} {m m' : Machine} {e : Effect} {f : Fault} {es : List Executed}

/-- The table has one entry for each opener that was executed, and no other entry. -/
structure Records (m : Machine) (es : List Executed) : Prop where
  nodup : m.loops.keys.Nodup
  mem_keys : ∀ o, o ∈ m.loops.keys ↔ o ∈ Run.openers es

namespace Records

theorem of_empty (h : m.loops = {}) : m.Records [] where
  nodup := by simp [h, LoopTable.keys]
  mem_keys o := by simp [h, LoopTable.keys, Run.openers]

theorem of_other (h : m.Records es) (hl : m'.loops = m.loops) (he : e.instruction ≠ .openLoop) :
    m'.Records (es ++ [⟨m, e⟩]) where
  nodup := hl ▸ h.nodup
  mem_keys o := by simp [hl, h.mem_keys, Run.openers, List.filter_append, he]

theorem of_opener (h : m.Records es) (he : e.instruction = .openLoop) {closer : Int}
    (hr : m.loops.resolve p m.ip = .ok (closer, m'.loops)) : m'.Records (es ++ [⟨m, e⟩]) := by
  have hopeners : Run.openers (es ++ [⟨m, e⟩]) = Run.openers es ++ [m.ip] := by
    simp [Run.openers, List.filter_append, he]
  obtain ⟨hk, hl⟩ | ⟨hk, hl⟩ := LoopTable.resolve_cases hr
  · -- an opener that was executed before
    refine ⟨hl ▸ h.nodup, fun o => ?_⟩
    rw [hl, hopeners, List.mem_append, List.mem_singleton, ← h.mem_keys]
    exact ⟨.inl, fun ho => ho.elim id fun heq => heq ▸ hk⟩
  · have hkeys : m'.loops.keys = m.ip :: m.loops.keys := by rw [hl]; rfl
    refine ⟨hkeys ▸ List.nodup_cons.2 ⟨hk, h.nodup⟩, fun o => ?_⟩
    rw [hkeys, hopeners, List.mem_append, List.mem_cons, List.mem_singleton, ← h.mem_keys, or_comm]

theorem step (h : m.Records es) (hs : m.step c p = .done e m') : m'.Records (es ++ [⟨m, e⟩]) := by
  cases moves_of_step hs with
  | onward hi ho hc hj hl hip => exact h.of_other hl ho
  | enter closer v hi he hr => exact h.of_opener he hr
  | skip closer hi he hr => exact h.of_opener he hr
  | leave hi he hv hj hl => exact h.of_other hl (by simp [he])
  | again opener v hi he ho hv hne hj hl => exact h.of_other hl (by simp [he])

theorem size_loops (h : m.Records es) : m.loops.size = (Run.openers es).toFinset.card := by
  have hset : m.loops.keys.toFinset = (Run.openers es).toFinset := by
    ext o
    simp only [List.mem_toFinset, h.mem_keys]
  rw [← hset, List.toFinset_card_of_nodup h.nodup, LoopTable.keys, List.length_map]
  rfl

end Records

theorem suffix_of_done (hs : m.step c p = .done e m') :
    m.loops.recorded <:+ m'.loops.recorded := by
  cases moves_of_step hs with
  | onward hi ho hc hj hl hip => exact hl ▸ List.suffix_refl _
  | enter closer v hi he hr => exact LoopTable.suffix_of_resolve hr
  | skip closer hi he hr => exact LoopTable.suffix_of_resolve hr
  | leave hi he hv hj hl => exact hl ▸ List.suffix_refl _
  | again opener v hi he ho hv hne hj hl => exact hl ▸ List.suffix_refl _

theorem suffix_of_failed (hs : m.step c p = .failed f m') :
    m.loops.recorded <:+ m'.loops.recorded := by
  obtain hl | ⟨-, closer, hr⟩ := (fails_of_step hs).loops
  · exact hl ▸ List.suffix_refl _
  · exact LoopTable.suffix_of_resolve hr

end Machine

namespace Run

variable {c : Config} {p : Program} {input : List UInt8} {n : ℕ} {r s : Run}

theorem records_of_running (h : (Run.start c input).forward c p n = .running r) :
    r.machine.Records ((Run.start c input).history c p n) := by
  rw [← p.forward_interpreter] at h
  exact Interpreter.running_induction (I := fun r es => r.machine.Records es) (.of_empty rfl)
    (fun _ _ _ _ hr _ hs => hr.step hs) h

/-- However a run goes on or ends, entries are only put in front of those that the table has. -/
theorem recorded_forward (c : Config) (p : Program) (r : Run) (n : ℕ) :
    r.machine.loops.recorded <:+ (r.forward c p n).run.machine.loops.recorded := by
  rw [← p.forward_interpreter]
  let I (s : Run) : Prop := r.machine.loops.recorded <:+ s.machine.loops.recorded
  refine Interpreter.forward_induction (I := I) (List.suffix_refl _) ?_ ?_ n
  · intro s e m hI _ hs
    exact hI.trans (Machine.suffix_of_done hs)
  · intro s f m hI _ hs
    exact hI.trans (Machine.suffix_of_failed hs)

/-- At every moment the table holds exactly the openers that have been executed, each with the
closer that the search in the text finds; the way back is the inverse of the way there, and no
entry ever changes. So a run that halts has resolved as many loops as it has executed different
openers. -/
theorem loops_recorded (c : Config) (p : Program) (input : List UInt8) (n : ℕ) :
    let history := (Run.start c input).history c p n
    (∀ a ∈ history, p.instructionAt a.before.ip = .ok a.effect.instruction) ∧
    (∀ r, (Run.start c input).forward c p n = .running r →
      let t := r.machine.loops
      (∀ o, t.contains o = true ↔ o ∈ openers history) ∧
      (∀ o d, t.closer? o = some d → 0 ≤ o ∧ o < d ∧ d < p.size ∧
        p.symbolAt o = .ok '[' ∧ p.symbolAt d = .ok ']' ∧ p.closerOf o = .ok d) ∧
      (∀ o d, t.opener? d = some o ↔ t.closer? o = some d) ∧
      ∀ k o d, t.closer? o = some d →
        (r.forward c p k).run.machine.loops.closer? o = some d ∧
        (r.forward c p k).run.machine.loops.opener? d = some o) ∧
    ∀ r, (Run.start c input).forward c p n = .halted r →
      r.summary.loopsResolved = (openers history).toFinset.card ∧
      r.summary.loopsResolved ≤ p.toList.count '[' := by
  intro history
  refine ⟨fun _ => instructionAt_of_mem_history, ?_, ?_⟩
  · intro r hr t
    have ht := tracked_of_running hr
    refine ⟨?_, ?_, ?_, ?_⟩
    · intro o
      rw [LoopTable.contains_iff_mem_keys, (records_of_running hr).mem_keys]
    · intro o d hd
      have hl := ht.sound o d (LoopTable.mem_of_closer? hd)
      exact ⟨hl.nonneg, hl.lt, hl.lt_size, hl.symbolAt_opener, hl.symbolAt_closer,
        (Program.closerOf_eq_ok_iff hl.instructionAt_opener hl.nonneg).2 hl⟩
    · intro o d
      rw [LoopTable.opener?_eq_some_iff ht.sound, LoopTable.closer?_eq_some_iff ht.sound]
    · intro k o d hd
      have hs := (tracked_forward ht c k).sound
      have hm := (recorded_forward c p r k).mem (LoopTable.mem_of_closer? hd)
      rw [LoopTable.closer?_eq_some_iff hs, LoopTable.opener?_eq_some_iff hs]
      exact ⟨hm, hm⟩
  · intro r hr
    obtain ⟨hk, -, he⟩ := exists_running_of_halted hr
    have hrec := records_of_running hk
    rw [← he] at hrec
    exact ⟨hrec.size_loops, (tracked_of_running hk).sound.size_le hrec.nodup⟩

theorem loops_recorded_nested :
    let c : Config := { memorySize := 2 }
    let p := Program.ofList ['+', '[', '>', '[', '-', ']', '<', '-', ']']
    let r := ((Run.start c []).forward c p 4).run
    let s := ((Run.start c []).forward c p 8).run
    ((Run.start c []).forward c p 4 = .running r ∧ r.machine.loops.contains 3 = true ∧
      r.machine.loops.opener? 5 = some 3 ∧ p.closerOf 3 = .ok 5 ∧
      (r.forward c p 4).run.machine.loops.closer? 3 = some 5) ∧
    (Run.start c []).forward c p 8 = .halted s ∧
      s.summary.loopsResolved = (openers ((Run.start c []).history c p 8)).toFinset.card ∧
      s.summary.loopsResolved ≤ 2 := by
  intro c p r s
  have hr : (Run.start c []).forward c p 4 = .running r := by decide
  have hs : (Run.start c []).forward c p 8 = .halted s := by decide
  have hd : r.machine.loops.closer? 3 = some 5 := by decide
  obtain ⟨hkeys, hloop, hinv, hkept⟩ := (loops_recorded c p [] 4).2.1 r hr
  exact ⟨⟨hr, (hkeys 3).2 (by decide), (hinv 3 5).2 hd, (hloop 3 5 hd).2.2.2.2.2,
    (hkept 4 3 5 hd).1⟩, hs, (loops_recorded c p [] 8).2.2 s hs⟩

end Run

end TapeMachine
