import TapeMachine.Proofs.Nesting

namespace TapeMachine

/-- One pass over a text with a stack of openers: each closer takes the opener seen last. -/
def pairsWithin : List Int → Int → List Char → List (Int × Int)
  | _, _, [] => []
  | opened, i, s :: rest =>
    if s = '[' then pairsWithin (i :: opened) (i + 1) rest
    else if s = ']' then
      match opened with
      | [] => pairsWithin [] (i + 1) rest
      | o :: opened => (o, i) :: pairsWithin opened (i + 1) rest
    else pairsWithin opened (i + 1) rest

namespace Program

def loops (p : Program) : LoopTable := ⟨pairsWithin [] 0 p.toList⟩

/-- A loop of the text, as positions of the machine. -/
def HasLoop (p : Program) (o c : Int) : Prop :=
  ∃ a b : ℕ, o = a ∧ c = b ∧ IsLoop p.toList a b

end Program

theorem isLoop_cons_zero {s : Char} {text : List Char} {c : ℕ} :
    IsLoop (s :: text) 0 c ↔ s = '[' ∧ closerWithin 0 1 text = some (c : Int) := by
  simp [isLoop_iff]

theorem isLoop_cons_succ {s : Char} {text : List Char} {o c : ℕ} :
    IsLoop (s :: text) (o + 1) c ↔ ∃ d, c = d + 1 ∧ IsLoop text o d := by
  have hs : closerWithin 0 ((o + 1 : ℕ) + 1) (text.drop (o + 1)) =
      (closerWithin 0 (o + 1) (text.drop (o + 1))).map (· + 1) := by
    rw [← closerWithin_shift, Int.natCast_succ]
  simp only [isLoop_iff, List.getElem?_cons_succ, List.drop_succ_cons, hs]
  constructor
  · rintro ⟨ho, hc⟩
    obtain ⟨d, hd, hdc⟩ := Option.map_eq_some_iff.1 hc
    obtain ⟨b, -, -, -, rfl⟩ := closerWithin_zero_eq_some_iff.1 hd
    exact ⟨o + 1 + b.length, by omega, ho, by rw [hd]; push_cast; rfl⟩
  · rintro ⟨d, rfl, ho, hd⟩
    exact ⟨ho, by rw [hd]; rfl⟩

/-- A loop of the longer text begins with its first symbol or lies in the rest. -/
theorem exists_isLoop_cons {o c i : Int} {s : Char} {text : List Char} :
    (∃ a b : ℕ, o = i + a ∧ c = i + b ∧ IsLoop (s :: text) a b) ↔
      (s = '[' ∧ o = i ∧ closerWithin 0 (i + 1) text = some c) ∨
      ∃ a b : ℕ, o = i + 1 + a ∧ c = i + 1 + b ∧ IsLoop text a b := by
  have hshift : closerWithin 0 (i + 1) text = (closerWithin 0 1 text).map (· + i) := by
    rw [Int.add_comm i 1, closerWithin_shift]
  constructor
  · rintro ⟨a, b, rfl, rfl, h⟩
    cases a with
    | zero =>
      obtain ⟨hs, hc⟩ := isLoop_cons_zero.1 h
      exact .inl ⟨hs, by simp, by rw [hshift, hc, Int.add_comm i b]; rfl⟩
    | succ a =>
      obtain ⟨d, rfl, hd⟩ := isLoop_cons_succ.1 h
      exact .inr ⟨a, d, by omega, by omega, hd⟩
  · rintro (⟨rfl, rfl, h⟩ | ⟨a, b, rfl, rfl, h⟩)
    · obtain ⟨d, hd, rfl⟩ := Option.map_eq_some_iff.1 (hshift.symm.trans h)
      obtain ⟨b, -, -, -, rfl⟩ := closerWithin_zero_eq_some_iff.1 hd
      exact ⟨0, 1 + b.length, by omega, by omega, isLoop_cons_zero.2 ⟨rfl, by rw [hd]; rfl⟩⟩
    · exact ⟨a + 1, b + 1, by omega, by omega, isLoop_cons_succ.2 ⟨b, rfl, h⟩⟩

/-- The text from position `i` on closes, at `c`, the opener `o` of the stack. -/
def ClosedBy (opened : List Int) (i : Int) (text : List Char) (o c : Int) : Prop :=
  ∃ j : ℕ, opened[j]? = some o ∧ closerWithin j i text = some c

theorem closedBy_opener {opened : List Int} {i o c : Int} {text : List Char} :
    ClosedBy (i :: opened) (i + 1) text o c ↔
      ClosedBy opened i ('[' :: text) o c ∨ (o = i ∧ closerWithin 0 (i + 1) text = some c) := by
  constructor
  · rintro ⟨_ | j, hj, hc⟩
    · exact .inr ⟨by simpa using hj.symm, hc⟩
    · exact .inl ⟨j, by simpa using hj, hc⟩
  · rintro (⟨j, hj, hc⟩ | ⟨rfl, hc⟩)
    · exact ⟨j + 1, by simpa using hj, hc⟩
    · exact ⟨0, rfl, hc⟩

theorem closedBy_closer {opened : List Int} {top i o c : Int} {text : List Char} :
    ClosedBy (top :: opened) i (']' :: text) o c ↔
      (o = top ∧ c = i) ∨ ClosedBy opened (i + 1) text o c := by
  constructor
  · rintro ⟨_ | j, hj, hc⟩
    · exact .inl ⟨by simpa using hj.symm, (Option.some.inj hc).symm⟩
    · exact .inr ⟨j, by simpa using hj, hc⟩
  · rintro (⟨rfl, rfl⟩ | ⟨j, hj, hc⟩)
    · exact ⟨0, rfl, rfl⟩
    · exact ⟨j + 1, by simpa using hj, hc⟩

theorem closedBy_other {opened : List Int} {i o c : Int} {s : Char} {text : List Char}
    (ho : s ≠ '[') (hc : s ≠ ']') :
    ClosedBy opened i (s :: text) o c ↔ ClosedBy opened (i + 1) text o c := by
  simp only [ClosedBy, closerWithin, if_neg ho, if_neg hc]

theorem not_closedBy_nil {i o c : Int} {text : List Char} : ¬ ClosedBy [] i text o c := by
  rintro ⟨j, hj, -⟩
  cases hj

/-- The pass finds the loops of the text and the closers of the openers it began with. -/
theorem mem_pairsWithin {opened : List Int} {i o c : Int} {text : List Char} :
    (o, c) ∈ pairsWithin opened i text ↔
      ClosedBy opened i text o c ∨ ∃ a b : ℕ, o = i + a ∧ c = i + b ∧ IsLoop text a b := by
  -- the stack differs from symbol to symbol
  induction text generalizing opened i with
  | nil =>
    have hn (a b : ℕ) : ¬ IsLoop [] a b := fun h => by simpa using h.lt_length
    simp [pairsWithin, ClosedBy, closerWithin, hn]
  | cons s text ih =>
    rw [exists_isLoop_cons]
    by_cases ho : s = '['
    · subst ho
      simp only [pairsWithin, if_true, true_and, ih, closedBy_opener, or_assoc]
    · by_cases hc : s = ']'
      · subst hc
        cases opened with
        | nil =>
          simp only [pairsWithin, ho, if_true, if_false, false_and, false_or, ih, not_closedBy_nil]
        | cons top opened =>
          simp only [pairsWithin, ho, if_true, if_false, false_and, false_or, List.mem_cons,
            Prod.mk.injEq, ih, closedBy_closer, or_assoc]
      · simp only [pairsWithin, ho, hc, if_false, false_and, false_or, ih, closedBy_other ho hc]

namespace Program

variable {p : Program} {o o' c c' : Int}

@[simp] theorem mem_loops : (o, c) ∈ p.loops.recorded ↔ p.HasLoop o c := by
  simp only [loops, mem_pairsWithin, not_closedBy_nil, false_or, HasLoop, Int.zero_add]

namespace HasLoop

theorem nonneg (h : p.HasLoop o c) : 0 ≤ o := by
  obtain ⟨a, b, rfl, rfl, -⟩ := h
  omega

theorem lt (h : p.HasLoop o c) : o < c := by
  obtain ⟨a, b, rfl, rfl, h⟩ := h
  exact Int.ofNat_lt.2 h.lt

theorem lt_size (h : p.HasLoop o c) : c < p.size := by
  obtain ⟨a, b, rfl, rfl, h⟩ := h
  have := h.lt_length
  rw [length_toList] at this
  exact Int.ofNat_lt.2 this

theorem closer_unique (h : p.HasLoop o c) (h' : p.HasLoop o c') : c = c' := by
  obtain ⟨a, b, rfl, rfl, h⟩ := h
  obtain ⟨a', b', ha, rfl, h'⟩ := h'
  obtain rfl := Int.ofNat.inj ha
  rw [h.closer_unique h']

theorem opener_unique (h : p.HasLoop o c) (h' : p.HasLoop o' c) : o = o' := by
  obtain ⟨a, b, rfl, rfl, h⟩ := h
  obtain ⟨a', b', rfl, hb, h'⟩ := h'
  obtain rfl := Int.ofNat.inj hb
  rw [h.opener_unique h']

theorem nested (h : p.HasLoop o c) (h' : p.HasLoop o' c') (ho : o < o') (hc : o' ≤ c) :
    c' < c := by
  obtain ⟨a, b, rfl, rfl, h⟩ := h
  obtain ⟨a', b', rfl, rfl, h'⟩ := h'
  exact Int.ofNat_lt.2 (h.nested h' (Int.ofNat_lt.1 ho) (Int.ofNat_le.1 hc))

end HasLoop

theorem symbolAt_natCast (p : Program) (i : ℕ) :
    p.symbolAt i = match p.toList[i]? with
      | some s => .ok s
      | none => .error (noSymbol i) := by
  have hn : ¬ (i : Int) < 0 := by omega
  rw [toList, Array.getElem?_toList]
  cases h : p.symbols[i]? <;> simp only [symbolAt, hn, if_false, Int.toNat_natCast, h]

theorem exists_symbolAt {i : Int} (hi : 0 ≤ i) (hlt : i < p.size) : ∃ s, p.symbolAt i = .ok s := by
  obtain ⟨n, rfl⟩ := Int.eq_ofNat_of_zero_le hi
  have hn : n < p.toList.length := by
    rw [length_toList]
    exact Int.ofNat_lt.1 hlt
  exact ⟨p.toList[n], by rw [symbolAt_natCast, List.getElem?_eq_getElem hn]⟩

theorem instructionAt_natCast {i : ℕ} {k : Instruction} :
    p.instructionAt i = .ok k ↔ p.toList[i]? = some k.symbol := by
  rw [instructionAt, symbolAt_natCast]
  cases p.toList[i]? with
  | none => simp
  | some s =>
    simp only [Option.some.injEq, ← Instruction.ofSymbol?_eq_some_iff]
    cases Instruction.ofSymbol? s <;> simp

theorem instructionAt_of_symbolAt {i : Int} {k : Instruction} (h : p.symbolAt i = .ok k.symbol) :
    p.instructionAt i = .ok k := by
  simp only [instructionAt, h, Instruction.ofSymbol?_symbol]

theorem HasLoop.instructionAt_opener (h : p.HasLoop o c) : p.instructionAt o = .ok .openLoop := by
  obtain ⟨a, b, rfl, rfl, h⟩ := h
  exact instructionAt_natCast.2 h.opener

theorem HasLoop.instructionAt_closer (h : p.HasLoop o c) : p.instructionAt c = .ok .closeLoop := by
  obtain ⟨a, b, rfl, rfl, h⟩ := h
  exact instructionAt_natCast.2 h.closer

theorem closerOf_natCast (p : Program) (i : ℕ) :
    p.closerOf i = match closerWithin 0 (i + 1) (p.toList.drop (i + 1)) with
      | some c => .ok c
      | none => .error (.unmatchedOpener i) := by
  have hn : (0 : Int) ≤ (i : Int) + 1 := by omega
  have hi : ((i : Int) + 1).toNat = i + 1 := by omega
  simp only [closerOf, symbolsFrom, hn, if_true, hi]
  split
  · rename_i h
    rw [List.drop_of_length_le (by rw [length_toList]; omega)]
    rfl
  · cases closerWithin 0 (i + 1) (p.toList.drop (i + 1)) <;> rfl

theorem HasLoop.exists_inside {k : Int} (h : p.HasLoop o c) (ho : o < k) (hc : k < c) :
    (p.instructionAt k = .ok .openLoop → ∃ d, p.HasLoop k d) ∧
      (p.instructionAt k = .ok .closeLoop → ∃ d, p.HasLoop d k) := by
  obtain ⟨a, b, rfl, rfl, h⟩ := h
  obtain ⟨i, rfl⟩ := Int.eq_ofNat_of_zero_le (show 0 ≤ k by omega)
  have hin := h.exists_inside (Int.ofNat_lt.1 ho) (Int.ofNat_lt.1 hc)
  constructor
  · intro hi
    obtain ⟨d, -, hl⟩ := hin.1 (instructionAt_natCast.1 hi)
    exact ⟨d, i, d, rfl, rfl, hl⟩
  · intro hi
    obtain ⟨d, -, hl⟩ := hin.2 (instructionAt_natCast.1 hi)
    exact ⟨d, d, i, rfl, rfl, hl⟩

/-- An opener's closer is found exactly if the opener begins a loop. -/
theorem closerOf_eq_ok_iff (hi : p.instructionAt o = .ok .openLoop) (ho : 0 ≤ o) :
    p.closerOf o = .ok c ↔ p.HasLoop o c := by
  obtain ⟨i, rfl⟩ := Int.eq_ofNat_of_zero_le ho
  have hs : p.toList[i]? = some '[' := instructionAt_natCast.1 hi
  rw [closerOf_natCast]
  cases hc : closerWithin 0 (i + 1) (p.toList.drop (i + 1)) with
  | none =>
    simp only [reduceCtorEq, false_iff]
    rintro ⟨a, b, ha, -, h⟩
    obtain rfl := Int.ofNat.inj ha
    rw [(isLoop_iff.1 h).2] at hc
    cases hc
  | some d =>
    obtain ⟨body, -, -, -, hd⟩ := closerWithin_zero_eq_some_iff.1 hc
    simp only [Except.ok.injEq]
    constructor
    · rintro rfl
      refine ⟨i, i + 1 + body.length, rfl, by push_cast; omega, isLoop_iff.2 ⟨hs, ?_⟩⟩
      rw [hc, hd]
      push_cast
      rfl
    · rintro ⟨a, b, ha, rfl, h⟩
      obtain rfl := Int.ofNat.inj ha
      exact Option.some.inj (hc.symm.trans (isLoop_iff.1 h).2)

/-- A search for a closer fails only because there is none. -/
theorem closerOf_eq_error {f : Fault} (ho : 0 ≤ o) (h : p.closerOf o = .error f) :
    f = .unmatchedOpener o := by
  obtain ⟨i, rfl⟩ := Int.eq_ofNat_of_zero_le ho
  rw [closerOf_natCast] at h
  split at h <;> cases h
  rfl

end Program

namespace LoopTable

variable {t : LoopTable} {o c : Int}

theorem mem_of_closer? (h : t.closer? o = some c) : (o, c) ∈ t.recorded := by
  obtain ⟨⟨a, b⟩, he, rfl⟩ := Option.map_eq_some_iff.1 h
  have ha := List.find?_some he
  simp only [decide_eq_true_eq] at ha
  exact ha ▸ List.mem_of_find?_eq_some he

theorem mem_of_opener? (h : t.opener? c = some o) : (o, c) ∈ t.recorded := by
  obtain ⟨⟨a, b⟩, he, rfl⟩ := Option.map_eq_some_iff.1 h
  have hb := List.find?_some he
  simp only [decide_eq_true_eq] at hb
  exact hb ▸ List.mem_of_find?_eq_some he

theorem closer?_isSome_of_mem (h : (o, c) ∈ t.recorded) : ∃ d, t.closer? o = some d := by
  rw [← Option.isSome_iff_exists, closer?, Option.isSome_map, List.find?_isSome]
  exact ⟨_, h, by simp⟩

theorem opener?_isSome_of_mem (h : (o, c) ∈ t.recorded) : ∃ d, t.opener? c = some d := by
  rw [← Option.isSome_iff_exists, opener?, Option.isSome_map, List.find?_isSome]
  exact ⟨_, h, by simp⟩

variable {p : Program}

theorem closer?_eq_some_iff (ht : ∀ o c, (o, c) ∈ t.recorded → p.HasLoop o c) :
    t.closer? o = some c ↔ (o, c) ∈ t.recorded := by
  constructor
  · exact mem_of_closer?
  · intro h
    obtain ⟨d, hd⟩ := closer?_isSome_of_mem h
    rw [hd, (ht _ _ h).closer_unique (ht _ _ (mem_of_closer? hd))]

theorem opener?_eq_some_iff (ht : ∀ o c, (o, c) ∈ t.recorded → p.HasLoop o c) :
    t.opener? c = some o ↔ (o, c) ∈ t.recorded := by
  constructor
  · exact mem_of_opener?
  · intro h
    obtain ⟨d, hd⟩ := opener?_isSome_of_mem h
    rw [hd, (ht _ _ h).opener_unique (ht _ _ (mem_of_opener? hd))]

end LoopTable

end TapeMachine
