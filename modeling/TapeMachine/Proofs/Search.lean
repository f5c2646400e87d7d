import TapeMachine.Proofs.BracketWords
import TapeMachine.Proofs.Doubling
import TapeMachine.Proofs.Faults

namespace TapeMachine.Program

/-- The search for a closer symbol by symbol, with `depth + 1` loops open behind position `i`. At
most `reads` symbols may be read; there is no answer when they do not suffice. -/
def search (p : Program) (opener : Int) (reads depth : ℕ) (i : Int) : Option (Except Fault Int) :=
  if p.size ≤ i + 1 then some (.error (.unmatchedOpener opener))
  else match reads with
    | 0 => none
    | reads + 1 =>
      match p.symbolAt (i + 1) with
      | .error f => some (.error f)
      | .ok s =>
        if s = '[' then p.search opener reads (depth + 1) (i + 1)
        else if s = ']' then
          match depth with
          | 0 => some (.ok (i + 1))
          | d + 1 => p.search opener reads d (i + 1)
        else p.search opener reads depth (i + 1)

variable {p : Program} {opener i : Int} {reads depth : ℕ} {s : Char} {rest : List Char}

theorem search_of_end (h : p.size ≤ i + 1) :
    p.search opener reads depth i = some (.error (.unmatchedOpener opener)) := by
  rw [search.eq_def, if_pos h]

theorem search_of_symbol (hlt : i + 1 < p.size) (hs : p.symbolAt (i + 1) = .ok s) :
    p.search opener (reads + 1) depth i =
      if s = '[' then p.search opener reads (depth + 1) (i + 1)
      else if s = ']' then
        match depth with
        | 0 => some (.ok (i + 1))
        | d + 1 => p.search opener reads d (i + 1)
      else p.search opener reads depth (i + 1) := by
  rw [search.eq_def, if_neg (Int.not_le.2 hlt), hs]

theorem range_of_symbolsFrom (h : p.symbolsFrom i = .ok rest) :
    -(p.size : Int) ≤ i ∧ (p.toList ++ p.toList).drop (i + p.size).toNat = rest := by
  have hlow : -(p.size : Int) ≤ i := by
    by_contra hlow
    rw [symbolsFrom_of_low (by omega)] at h
    cases h
  rw [symbolsFrom_eq_drop hlow] at h
  exact ⟨hlow, Except.ok.inj h⟩

theorem length_of_symbolsFrom (h : p.symbolsFrom i = .ok rest) :
    rest.length = (p.size - i).toNat := by
  obtain ⟨hlow, rfl⟩ := range_of_symbolsFrom h
  rw [List.length_drop, List.length_append, length_toList]
  omega

theorem symbolsFrom_cons (h : p.symbolsFrom i = .ok (s :: rest)) :
    i < p.size ∧ p.symbolAt i = .ok s ∧ p.symbolsFrom (i + 1) = .ok rest := by
  have hlen := length_of_symbolsFrom h
  rw [List.length_cons] at hlen
  have hlt : i < p.size := by omega
  obtain ⟨hlow, hdrop⟩ := range_of_symbolsFrom h
  refine ⟨hlt, ?_, ?_⟩
  · have hs : (p.toList ++ p.toList)[(i + p.size).toNat]? = some s := by
      rw [← Nat.add_zero (i + p.size).toNat, ← List.getElem?_drop, hdrop]
      rfl
    rw [← symbolAt_doubled hlow hlt, ← Int.toNat_of_nonneg (show 0 ≤ i + p.size by omega),
      symbolAt_natCast, toList_append, hs]
  · have hnext : (i + 1 + p.size).toNat = (i + p.size).toNat + 1 := by omega
    rw [symbolsFrom_eq_drop (by omega), hnext, ← List.drop_drop, hdrop]
    rfl

theorem search_of_symbolsFrom (h : p.symbolsFrom (i + 1) = .ok rest)
    (hr : rest.length ≤ reads) :
    p.search opener reads depth i = match closerWithin depth (i + 1) rest with
      | some c => some (.ok c)
      | none => some (.error (.unmatchedOpener opener)) := by
  -- each symbol before the reader takes one of the reads
  induction rest generalizing i reads depth with
  | nil =>
    have hlen := length_of_symbolsFrom h
    rw [List.length_nil] at hlen
    exact search_of_end (by omega)
  | cons s rest ih =>
    obtain ⟨hlt, hs, hrest⟩ := symbolsFrom_cons h
    obtain ⟨reads, rfl⟩ : ∃ n, reads = n + 1 :=
      ⟨reads - 1, by rw [List.length_cons] at hr; omega⟩
    have hr' : rest.length ≤ reads := Nat.le_of_succ_le_succ hr
    rw [search_of_symbol hlt hs]
    simp only [closerWithin]
    split_ifs
    · exact ih hrest hr'
    · cases depth with
      | zero => rfl
      | succ d => exact ih hrest hr'
    · exact ih hrest hr'

/-- The search is over when the symbols between the opener and the end of the text are read. -/
theorem search_eq (h : (p.size : Int) - i - 1 ≤ reads) :
    p.search i reads 0 i = some (p.closerOf i) := by
  by_cases hend : (p.size : Int) ≤ i + 1
  · rw [search_of_end hend, closerOf, if_pos hend]
  by_cases hlow : i + 1 < -(p.size : Int)
  · -- the first symbol is asked for in vain
    obtain ⟨reads, rfl⟩ : ∃ n, reads = n + 1 := ⟨reads - 1, by omega⟩
    rw [search.eq_def, if_neg hend, symbolAt_of_low hlow, closerOf_of_low hlow]
  · have hs : p.symbolsFrom (i + 1) = _ := symbolsFrom_eq_drop (by omega)
    have hlen := length_of_symbolsFrom hs
    rw [search_of_symbolsFrom hs (by omega), closerOf, if_neg hend, hs]
    dsimp only
    cases closerWithin 0 (i + 1) ((p.toList ++ p.toList).drop (i + 1 + p.size).toNat) <;> rfl

theorem noSymbol_of_fits (h : -9223372036854775808 ≤ i) (h' : i < 9223372036854775808) :
    noSymbol i = .positionOutOfRange :=
  if_pos ⟨h, h'⟩

/-- The search decides the grammar: it finds the one closer with a word of brackets before it, or
says that there is none. From a position before the text it goes on as in the text written twice,
from further away it finds no symbol, and it never reads more symbols than there are positions up
to the end of the text. -/
theorem closerOf_decides_grammar (p : Program) :
    (∀ o : ℕ,
      (∀ c : Int, p.closerOf o = .ok c ↔ ∃ k : ℕ, c = k ∧ Closes p.toList o k) ∧
      (∀ k l, Closes p.toList o k → Closes p.toList o l → k = l) ∧
      (p.closerOf o = .error (.unmatchedOpener o) ↔ ∀ k, ¬ Closes p.toList o k) ∧
      (p.size ≤ o + 1 → p.closerOf o = .error (.unmatchedOpener o))) ∧
    (∀ i : Int, -(p.size : Int) - 1 ≤ i →
      (∀ c, (p ++ p).closerOf (i + p.size) = .ok c → p.closerOf i = .ok (c - p.size)) ∧
      ∀ f, (p ++ p).closerOf (i + p.size) = .error f →
        p.closerOf i = .error (.unmatchedOpener i)) ∧
    (∀ i : Int, i < -(p.size : Int) - 1 → -9223372036854775808 ≤ i + 1 →
      p.closerOf i = .error .positionOutOfRange) ∧
    ∀ (i : Int) (reads : ℕ), (p.size : Int) - i - 1 ≤ reads →
      p.search i reads 0 i = some (p.closerOf i) := by
  refine ⟨fun o => ⟨fun c => closerOf_natCast_eq_ok_iff, fun k l => Closes.unique,
    closerOf_natCast_eq_error_iff, fun hend => ?_⟩, fun i hi => ⟨fun c hc => ?_, fun f hf => ?_⟩,
    fun i hi hfits => ?_, fun i reads => search_eq⟩
  · rw [closerOf, if_pos (by omega)]
  · rw [closerOf_doubled hi, hc]
  · rw [closerOf_doubled hi, hf]
  · rw [closerOf_of_low (by omega), noSymbol_of_fits hfits (by omega)]

/-- The opener in the middle has no closer behind it, unless the text is read once more. -/
theorem grammar_decided_around_the_end :
    let p := ofList [']', '[', '+', '[', ']']
    (p.closerOf 1 = .error (.unmatchedOpener 1) ∧ ∀ k, ¬ Closes p.toList 1 k) ∧
    p.closerOf 4 = .error (.unmatchedOpener 4) ∧
    ((p ++ p).closerOf 1 = .ok 5 ∧ p.closerOf (-4) = .ok 0) ∧
    p.closerOf (-7) = .error .positionOutOfRange ∧
    p.search (-4) 8 0 (-4) = some (.ok 0) := by
  intro p
  obtain ⟨hgrammar, hdoubled, hlow, hreads⟩ := closerOf_decides_grammar p
  have hopen : p.closerOf 1 = .error (.unmatchedOpener 1) := by decide
  have hcopy : (p ++ p).closerOf 1 = .ok 5 := by decide
  have hclosed : p.closerOf (-4) = .ok 0 := (hdoubled (-4) (by decide)).1 5 hcopy
  refine ⟨⟨hopen, (hgrammar 1).2.2.1.1 hopen⟩, (hgrammar 4).2.2.2 (by decide),
    ⟨hcopy, hclosed⟩, hlow (-7) (by decide) (by decide), ?_⟩
  rw [hreads (-4) 8 (by decide), hclosed]

end TapeMachine.Program
