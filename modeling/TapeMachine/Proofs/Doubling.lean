import TapeMachine.Proofs.Concatenation
import TapeMachine.Proofs.Recording

namespace TapeMachine.Program

variable {p : Program} {i j c d : Int} {s : Char}

theorem symbolAt_of_neg (hi : i < 0) (hk : 0 ≤ i + p.size) :
    p.symbolAt i = p.symbolAt (i + p.size) := by
  have hlt : (i + p.size).toNat < p.symbols.size := by
    change (i + p.size).toNat < p.size
    omega
  simp only [symbolAt, if_pos hi, if_neg (Int.not_lt.2 hk), Array.getElem?_eq_getElem hlt]

theorem symbolAt_of_low (h : i < -(p.size : Int)) : p.symbolAt i = .error (noSymbol i) := by
  have hn : i < 0 := by omega
  have hk : i + (p.size : Int) < 0 := by omega
  simp only [symbolAt, if_pos hn, if_pos hk]

theorem symbolsFrom_of_low (h : i < -(p.size : Int)) : p.symbolsFrom i = .error (noSymbol i) := by
  rw [symbolsFrom, if_neg (by omega), if_neg (by omega)]

theorem range_of_symbolAt (h : p.symbolAt i = .ok s) : -(p.size : Int) ≤ i ∧ i < p.size := by
  have hlow : -(p.size : Int) ≤ i := by
    by_contra hlow
    rw [symbolAt_of_low (by omega)] at h
    cases h
  refine ⟨hlow, ?_⟩
  by_contra hlt
  obtain ⟨n, rfl⟩ := Int.eq_ofNat_of_zero_le (show 0 ≤ i by omega)
  have hn : p.toList.length ≤ n := by
    rw [length_toList]
    omega
  rw [symbolAt_natCast, List.getElem?_eq_none hn] at h
  cases h

/-- Positions counted from the end of a text are those of its first copy when it is written twice,
and the others are those of the second copy. -/
theorem symbolAt_doubled (hi : -(p.size : Int) ≤ i) (hlt : i < p.size) :
    (p ++ p).symbolAt (i + p.size) = p.symbolAt i := by
  by_cases hn : i < 0
  · obtain ⟨k, hk⟩ := Int.eq_ofNat_of_zero_le (show 0 ≤ i + p.size by omega)
    have hk' : k < p.toList.length := by
      rw [length_toList]
      omega
    rw [symbolAt_of_neg hn (by omega), hk, symbolAt_natCast, symbolAt_natCast, toList_append,
      List.getElem?_append_left hk']
  · obtain ⟨n, rfl⟩ := Int.eq_ofNat_of_zero_le (Int.not_lt.1 hn)
    rw [Int.add_comm, symbolAt_append_right p (Int.ofNat_lt.1 hlt)]

theorem symbolsFrom_eq_drop (hi : -(p.size : Int) ≤ i) :
    p.symbolsFrom i = .ok ((p.toList ++ p.toList).drop (i + p.size).toNat) := by
  by_cases hn : 0 ≤ i
  · -- a reader in the second copy
    have hk : (i + p.size).toNat = p.toList.length + i.toNat := by
      rw [length_toList]
      omega
    rw [symbolsFrom, if_pos hn, hk, ← List.drop_drop, List.drop_left]
  · have hlen : (i + p.size).toNat ≤ p.toList.length := by
      rw [length_toList]
      omega
    rw [symbolsFrom, if_neg hn, if_pos (by omega), List.drop_append_of_le_length hlen]

theorem closerOf_of_low (h : i + 1 < -(p.size : Int)) :
    p.closerOf i = .error (noSymbol (i + 1)) := by
  rw [closerOf, if_neg (by omega), symbolsFrom_of_low h]

/-- The search from a position before the text is the search in the text written twice. -/
theorem closerOf_doubled (hi : -(p.size : Int) - 1 ≤ i) :
    p.closerOf i = match (p ++ p).closerOf (i + p.size) with
      | .ok c => .ok (c - p.size)
      | .error _ => .error (.unmatchedOpener i) := by
  have hnext : i + (p.size : Int) + 1 = i + 1 + p.size := by omega
  have hsize : ((p ++ p).size : Int) = p.size + p.size := by rw [size_append, Int.natCast_add]
  have hread : p.symbolsFrom (i + 1) = _ := symbolsFrom_eq_drop (by omega)
  have hcopy : (p ++ p).symbolsFrom (i + 1 + p.size) = p.symbolsFrom (i + 1) := by
    rw [hread, symbolsFrom, if_pos (by omega), toList_append]
  unfold closerOf
  rw [hnext, hsize, hcopy, hread]
  dsimp only
  rw [closerWithin_shift p.size]
  by_cases hend : (p.size : Int) ≤ i + 1
  · rw [if_pos hend, if_pos (by omega)]
  · rw [if_neg hend, if_neg (by omega)]
    cases closerWithin 0 (i + 1) ((p.toList ++ p.toList).drop (i + 1 + p.size).toNat) with
    | none => rfl
    | some c => exact congrArg Except.ok (Int.add_sub_cancel c p.size).symm

theorem instructionAt_doubled (hi : p.symbolAt i = .ok '[') :
    (p ++ p).instructionAt (i + p.size) = .ok .openLoop := by
  obtain ⟨hlow, hlt⟩ := range_of_symbolAt hi
  exact instructionAt_of_symbolAt ((symbolAt_doubled hlow hlt).trans hi)

theorem closerOf_eq_ok_iff_doubled (hi : p.symbolAt i = .ok '[') :
    p.closerOf i = .ok c ↔ (p ++ p).HasLoop (i + p.size) (c + p.size) := by
  have hlow := (range_of_symbolAt hi).1
  rw [← closerOf_eq_ok_iff (instructionAt_doubled hi) (by omega), closerOf_doubled (by omega)]
  cases (p ++ p).closerOf (i + p.size) with
  | error f => simp
  | ok e =>
    simp only [Except.ok.injEq]
    omega

theorem symbolAt_of_hasLoop_doubled (h : (p ++ p).HasLoop (i + p.size) (c + p.size)) :
    p.symbolAt c = .ok ']' := by
  have hnn := h.nonneg
  have hlt := h.lt
  have hsize := h.lt_size
  rw [size_append, Int.natCast_add] at hsize
  rw [← symbolAt_doubled (by omega) (by omega), h.symbolAt_closer]

/-- Of two openers of a text, counted from its start or from its end, the later one lies behind the
loop of the earlier one or has its own loop inside that. -/
theorem closers_apart_or_nested (hi : p.symbolAt i = .ok '[') (hj : p.symbolAt j = .ok '[')
    (hij : i < j) :
    (∀ c d, p.closerOf i = .ok c → p.closerOf j = .ok d →
      c ≠ d ∧ p.symbolAt c = .ok ']' ∧ p.symbolAt d = .ok ']' ∧ (c < j ∨ d < c)) ∧
    ∀ c, p.closerOf i = .ok c → j < c → ∃ d, p.closerOf j = .ok d ∧ d < c := by
  have hlt : i + (p.size : Int) < j + p.size := by omega
  constructor
  · intro c d hc hd
    rw [closerOf_eq_ok_iff_doubled hi] at hc
    rw [closerOf_eq_ok_iff_doubled hj] at hd
    refine ⟨?_, symbolAt_of_hasLoop_doubled hc, symbolAt_of_hasLoop_doubled hd, ?_⟩
    · rintro rfl
      have := hc.opener_unique hd
      omega
    · by_cases hcj : c < j
      · exact .inl hcj
      · have := hc.nested hd hlt (by omega)
        exact .inr (by omega)
  · intro c hc hjc
    rw [closerOf_eq_ok_iff_doubled hi] at hc
    obtain ⟨e, he⟩ := (hc.exists_inside hlt (by omega)).1 (instructionAt_doubled hj)
    have hin := hc.nested he hlt (by omega)
    refine ⟨e - p.size, (closerOf_eq_ok_iff_doubled hj).2 ?_, by omega⟩
    rwa [Int.sub_add_cancel]

/-- The outer loop begins in front of the end of the text and is closed at its start. -/
theorem closers_nested_across_the_end :
    let p := ofList [']', '[', '[', ']']
    (p.symbolAt (-3) = .ok '[' ∧ p.symbolAt (-2) = .ok '[' ∧ p.closerOf (-3) = .ok 0 ∧
      p.closerOf (-2) = .ok (-1)) ∧
    ((0 : Int) ≠ -1 ∧ p.symbolAt 0 = .ok ']' ∧ p.symbolAt (-1) = .ok ']' ∧
      ((0 : Int) < -2 ∨ (-1 : Int) < 0)) ∧
    ∃ d, p.closerOf (-2) = .ok d ∧ d < 0 := by
  intro p
  have hi : p.symbolAt (-3) = .ok '[' := by decide
  have hj : p.symbolAt (-2) = .ok '[' := by decide
  have hc : p.closerOf (-3) = .ok 0 := by decide
  have hd : p.closerOf (-2) = .ok (-1) := by decide
  obtain ⟨hpair, hinner⟩ := closers_apart_or_nested hi hj (by decide)
  exact ⟨⟨hi, hj, hc, hd⟩, hpair 0 (-1) hc hd, hinner 0 hc (by decide)⟩

end TapeMachine.Program
