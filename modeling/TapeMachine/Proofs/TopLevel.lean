import TapeMachine.Proofs.Tracking
import Mathlib.Data.List.Range

namespace TapeMachine

namespace Program

/-- A position of the top level lies behind the opener of no loop that it does not lie behind
entirely. -/
def isTopLevel (p : Program) (k : Int) : Bool :=
  p.loops.recorded.all fun l => decide ¬ (l.1 < k ∧ k ≤ l.2)

def topLevelBelow (p : Program) (k : ℕ) : List Int :=
  ((List.range k).map Int.ofNat).filter p.isTopLevel

def topLevel (p : Program) : List Int := p.topLevelBelow p.size

variable {p : Program} {o c k : Int}

theorem isTopLevel_iff : p.isTopLevel k = true ↔ ∀ o c, p.HasLoop o c → ¬ (o < k ∧ k ≤ c) := by
  simp only [isTopLevel, List.all_eq_true, decide_eq_true_eq, Prod.forall, mem_loops]

theorem HasLoop.not_isTopLevel (h : p.HasLoop o c) (ho : o < k) (hc : k ≤ c) :
    p.isTopLevel k = false :=
  Bool.eq_false_iff.2 fun ht => isTopLevel_iff.1 ht o c h ⟨ho, hc⟩

theorem mem_topLevel : k ∈ p.topLevel ↔ 0 ≤ k ∧ k < p.size ∧ p.isTopLevel k = true := by
  simp only [topLevel, topLevelBelow, List.mem_filter, List.mem_map, List.mem_range, ← and_assoc]
  apply and_congr_left
  intro _
  constructor
  · rintro ⟨i, hi, rfl⟩
    exact ⟨Int.natCast_nonneg i, Int.ofNat_lt.2 hi⟩
  · intro ⟨h, h'⟩
    exact ⟨k.toNat, by omega, Int.toNat_of_nonneg h⟩

theorem topLevelBelow_succ (p : Program) (i : ℕ) :
    p.topLevelBelow (i + 1) = p.topLevelBelow i ++ [(i : Int)].filter p.isTopLevel := by
  simp only [topLevelBelow, List.range_succ, List.map_append, List.filter_append]
  rfl

theorem topLevelBelow_mono {i j : ℕ} (h : i ≤ j) : p.topLevelBelow i <+: p.topLevelBelow j := by
  obtain ⟨d, rfl⟩ := Nat.exists_eq_add_of_le h
  rw [topLevelBelow, topLevelBelow, List.range_add, List.map_append, List.filter_append]
  exact List.prefix_append _ _

theorem pairwise_topLevelBelow (p : Program) (i : ℕ) : (p.topLevelBelow i).Pairwise (· < ·) :=
  (List.pairwise_map.2 (List.pairwise_lt_range.imp Int.ofNat_lt.2)).filter _

theorem isTopLevel_of_unmatched (hi : p.instructionAt k = .ok .openLoop ∧ (∀ c, ¬ p.HasLoop k c) ∨
    p.instructionAt k = .ok .closeLoop ∧ ∀ o, ¬ p.HasLoop o k) : p.isTopLevel k = true := by
  rw [isTopLevel_iff]
  rintro o c h ⟨ho, hc⟩
  -- inside a loop it would have its partner
  obtain ⟨hi, hn⟩ | ⟨hi, hn⟩ := hi
  · have hne : k ≠ c := by
      rintro rfl
      have := h.instructionAt_closer
      simp [hi] at this
    obtain ⟨d, hd⟩ := (h.exists_inside ho (by omega)).1 hi
    exact hn d hd
  · have hne : k ≠ c := by
      rintro rfl
      exact hn o h
    obtain ⟨d, hd⟩ := (h.exists_inside ho (by omega)).2 hi
    exact hn d hd

theorem mem_topLevel_of_unmatched {i : ℕ} {s : Char} (hs : p.toList[i]? = some s)
    (hi : p.instructionAt i = .ok .openLoop ∧ (∀ c, ¬ p.HasLoop i c) ∨
      p.instructionAt i = .ok .closeLoop ∧ ∀ o, ¬ p.HasLoop o i) : (i : Int) ∈ p.topLevel := by
  have hlt := (List.getElem?_eq_some_iff.1 hs).1
  rw [length_toList] at hlt
  exact mem_topLevel.2 ⟨Int.natCast_nonneg i, Int.ofNat_lt.2 hlt, isTopLevel_of_unmatched hi⟩

theorem HasLoop.topLevelBelow_eq (h : p.HasLoop o c) (i : ℕ) (ho : o < i) (hc : i ≤ c + 1) :
    p.topLevelBelow i = p.topLevelBelow (o.toNat + 1) := by
  have hn := h.nonneg
  obtain ⟨j, rfl⟩ : ∃ j, i = o.toNat + 1 + j := ⟨i - (o.toNat + 1), by omega⟩
  induction j with
  | zero => rfl
  | succ j ih =>
    have ht := h.not_isTopLevel (k := (o.toNat + 1 + j : ℕ)) (by omega) (by omega)
    rw [← Nat.add_assoc, topLevelBelow_succ, List.filter_singleton, ht, ih (by omega) (by omega)]
    exact List.append_nil _

end Program

/-- No instruction passes over a position of the top level or goes back behind one. -/
theorem Machine.Tracked.topLevelBelow_step {c : Config} {p : Program} {m m' : Machine} {e : Effect}
    (h : m.Tracked p) (hs : m.step c p = .done e m') :
    p.topLevelBelow m'.ip.toNat = p.topLevelBelow (m.ip.toNat + 1) := by
  have hip := h.nonneg
  cases moves_of_step hs with
  | onward hi ho hc hj hl hip' =>
    rw [show m'.ip.toNat = m.ip.toNat + 1 by omega]
  | enter closer v hi he hr hv hne hj hip' =>
    rw [show m'.ip.toNat = m.ip.toNat + 1 by omega]
  | leave hi he hv hj hl hip' =>
    rw [show m'.ip.toNat = m.ip.toNat + 1 by omega]
  | skip closer hi he hr hv hj hip' =>
    have hloop := LoopTable.hasLoop_of_resolve h.sound hi hip hr
    have hlt := hloop.lt
    exact hloop.topLevelBelow_eq m'.ip.toNat (by omega) (by omega)
  | again opener v hi he ho hv hne hj hl hip' =>
    have hloop := LoopTable.hasLoop_of_openerOf h.sound ho
    have hlt := hloop.lt
    have hnn := hloop.nonneg
    -- behind the opener and behind the closer there are the same positions of the top level
    rw [hloop.topLevelBelow_eq _ (by omega) (by omega),
      hloop.topLevelBelow_eq (m.ip.toNat + 1) (by omega) (by omega)]

namespace Run

variable {c : Config} {p : Program} {input : List UInt8} {n : ℕ} {r : Run}

def positions (es : List Executed) : List Int := es.map fun a => a.before.ip

/-- At every moment the executed positions of the top level are all those that lie behind the
instruction pointer. -/
theorem filter_positions_of_running (h : (Run.start c input).forward c p n = .running r) :
    (positions ((Run.start c input).history c p n)).filter p.isTopLevel =
      p.topLevelBelow r.machine.ip.toNat := by
  rw [← p.forward_interpreter] at h
  let I (r : Run) (es : List Executed) : Prop := r.machine.Tracked p ∧
    (positions es).filter p.isTopLevel = p.topLevelBelow r.machine.ip.toNat
  suffices hI : I r ((p.interpreter c).history (.start c input) n) from hI.2
  refine Interpreter.running_induction (I := I) ⟨.of_fresh rfl rfl p, rfl⟩ ?_ h
  intro s es e m ⟨ht, hI⟩ hh hs
  refine ⟨ht.step hh hs, ?_⟩
  rw [ht.topLevelBelow_step hs, Program.topLevelBelow_succ, ← hI, Int.toNat_of_nonneg ht.nonneg,
    positions, List.map_append, List.filter_append]
  rfl

theorem filter_positions_of_halted (h : (Run.start c input).forward c p n = .halted r) :
    (positions ((Run.start c input).history c p n)).filter p.isTopLevel = p.topLevel := by
  obtain ⟨hk, hip, he⟩ := exists_running_of_halted h
  rw [he, filter_positions_of_running hk, hip, Int.toNat_natCast, Program.topLevel]

theorem count_positions_of_halted (h : (Run.start c input).forward c p n = .halted r) {k : Int}
    (hk : k ∈ p.topLevel) : (positions ((Run.start c input).history c p n)).count k = 1 := by
  have hnodup : p.topLevel.Nodup := (p.pairwise_topLevelBelow p.size).imp Int.ne_of_lt
  rw [← List.count_filter (Program.mem_topLevel.1 hk).2.2, filter_positions_of_halted h]
  rw [hnodup.count, if_pos hk]

theorem exists_moves_of_mem_history {a : Executed} (h : a ∈ (Run.start c input).history c p n) :
    a.before.Tracked p ∧ ∃ m, a.before.Moves c p a.effect m := by
  obtain ⟨k, s, m, -, hk, hs, -, hm⟩ := Interpreter.exists_step_of_mem_history h
  rw [p.forward_interpreter] at hk
  exact ⟨hs ▸ tracked_of_running hk, m, Machine.moves_of_step hm⟩

theorem exists_mem_history_of_halted (h : (Run.start c input).forward c p n = .halted r) {k : Int}
    (hk : k ∈ p.topLevel) : ∃ a ∈ (Run.start c input).history c p n, a.before.ip = k := by
  have hc := count_positions_of_halted h hk
  have hpos : 0 < (positions ((Run.start c input).history c p n)).count k := by rw [hc]; decide
  exact List.mem_map.1 (List.count_pos_iff.1 hpos)

variable {a : Executed}

theorem exists_hasLoop_of_mem_history (h : a ∈ (Run.start c input).history c p n)
    (hi : p.instructionAt a.before.ip = .ok .openLoop) : ∃ d, p.HasLoop a.before.ip d := by
  obtain ⟨ht, m, hm⟩ := exists_moves_of_mem_history h
  cases hm with
  | onward hj ho => exact absurd (Except.ok.inj (hj.symm.trans hi)) ho
  | enter closer v hj he hr => exact ⟨closer, LoopTable.hasLoop_of_resolve ht.sound hi ht.nonneg hr⟩
  | skip closer hj he hr => exact ⟨closer, LoopTable.hasLoop_of_resolve ht.sound hi ht.nonneg hr⟩
  | leave hj => cases hj.symm.trans hi
  | again opener v hj => cases hj.symm.trans hi

theorem value?_of_mem_history (h : a ∈ (Run.start c input).history c p n)
    (hi : p.instructionAt a.before.ip = .ok .closeLoop) (hn : ∀ o, ¬ p.HasLoop o a.before.ip) :
    a.before.value? c = some 0 := by
  obtain ⟨ht, m, hm⟩ := exists_moves_of_mem_history h
  cases hm with
  | onward hj ho hc => exact absurd (Except.ok.inj (hj.symm.trans hi)) hc
  | enter closer v hj => cases hj.symm.trans hi
  | skip closer hj => cases hj.symm.trans hi
  | leave hj he hv => exact hv
  | again opener v hj he ho => exact absurd (LoopTable.hasLoop_of_openerOf ht.sound ho) (hn opener)

theorem exists_hasLoop_of_halted (h : (Run.start c input).forward c p n = .halted r) {i : ℕ}
    (hi : p.toList[i]? = some '[') : ∃ d, p.HasLoop i d := by
  have hi' : p.instructionAt i = .ok .openLoop := Program.instructionAt_natCast.2 hi
  by_contra hn
  have htop := Program.mem_topLevel_of_unmatched hi (.inl ⟨hi', not_exists.1 hn⟩)
  obtain ⟨a, ha, hip⟩ := exists_mem_history_of_halted h htop
  rw [← hip] at hi' hn
  exact hn (exists_hasLoop_of_mem_history ha hi')

theorem stray_closer_of_halted (h : (Run.start c input).forward c p n = .halted r) {i : ℕ}
    (hi : p.toList[i]? = some ']') (hn : ∀ o, ¬ p.HasLoop o i) :
    (positions ((Run.start c input).history c p n)).count (i : Int) = 1 ∧
      ∀ a ∈ (Run.start c input).history c p n, a.before.ip = i → a.before.value? c = some 0 := by
  have hi' : p.instructionAt i = .ok .closeLoop := Program.instructionAt_natCast.2 hi
  have htop := Program.mem_topLevel_of_unmatched hi (.inr ⟨hi', hn⟩)
  refine ⟨count_positions_of_halted h htop, ?_⟩
  intro a ha hip
  rw [← hip] at hi' hn
  exact value?_of_mem_history ha hi' hn

theorem filter_positions_isPrefix (c : Config) (p : Program) (input : List UInt8) (n : ℕ) :
    (positions ((Run.start c input).history c p n)).filter p.isTopLevel <+: p.topLevel := by
  obtain ⟨k, s, hk, he⟩ := (p.interpreter c).exists_running_of_history (.start c input) n
  rw [p.forward_interpreter] at hk
  have hle := (tracked_of_running hk).le_size
  rw [history, he, ← history, filter_positions_of_running hk]
  exact Program.topLevelBelow_mono (by omega)

/-- The instructions of the top level are executed one after the other and none of them twice. If
the run halts they all have been, each opener has its closer, and each closer without an opener
was passed on a zero cell. -/
theorem topLevel_executed_once (c : Config) (p : Program) (input : List UInt8) (n : ℕ) :
    let history := (Run.start c input).history c p n
    (positions history).filter p.isTopLevel <+: p.topLevel ∧
    ((positions history).filter p.isTopLevel).Pairwise (· < ·) ∧
    ∀ r, (Run.start c input).forward c p n = .halted r →
      (∀ k ∈ p.topLevel, (positions history).count k = 1) ∧
      (∀ i : ℕ, p.toList[i]? = some '[' → ∃ closer, ((i : Int), closer) ∈ p.loops.recorded) ∧
      ∀ i : ℕ, p.toList[i]? = some ']' → (∀ o, (o, (i : Int)) ∉ p.loops.recorded) →
        (positions history).count (i : Int) = 1 ∧
          ∀ a ∈ history, a.before.ip = i → a.before.value? c = some 0 := by
  intro history
  have hpre := filter_positions_isPrefix c p input n
  refine ⟨hpre, (p.pairwise_topLevelBelow p.size).sublist hpre.sublist, ?_⟩
  intro r hr
  simp only [Program.mem_loops]
  refine ⟨?_, ?_, ?_⟩
  · intro k hk
    exact count_positions_of_halted hr hk
  · intro i hi
    exact exists_hasLoop_of_halted hr hi
  · intro i hi hn
    exact stray_closer_of_halted hr hi hn

theorem topLevel_stray_closer :
    let c : Config := { memorySize := 1 }
    let p := Program.ofList ['+', '[', '-', ']', ']']
    let r := ((Run.start c []).forward c p 6).run
    let history := (Run.start c []).history c p 6
    (Run.start c []).forward c p 6 = .halted r ∧ (positions history).count 0 = 1 ∧
      (∃ closer, (1, closer) ∈ p.loops.recorded) ∧ (positions history).count 4 = 1 ∧
      ∀ a ∈ history, a.before.ip = 4 → a.before.value? c = some 0 := by
  intro c p r history
  have hr : (Run.start c []).forward c p 6 = .halted r := by decide
  have hn : ∀ o, (o, ((4 : ℕ) : Int)) ∉ p.loops.recorded := by
    have hl : p.loops.recorded = [(1, 3)] := by decide
    intro o
    simp [hl]
  obtain ⟨htop, hopen, hclose⟩ := (topLevel_executed_once c p [] 6).2.2 r hr
  obtain ⟨hcount, hzero⟩ := hclose 4 (by decide) hn
  exact ⟨hr, htop 0 (by decide), hopen 1 (by decide), hcount, hzero⟩

end Run

end TapeMachine
