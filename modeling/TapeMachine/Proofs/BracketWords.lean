import TapeMachine.Proofs.Matching

namespace TapeMachine

def isBracket (s : Char) : Bool := s = '[' || s = ']'

def brackets (text : List Char) : List Char := text.filter isBracket

/-- Words of brackets in which each has its partner: a loop is followed by a word and has a word
for its body. -/
inductive BracketWord : List Char → Prop
  | nil : BracketWord []
  | loop {body rest : List Char} (hb : BracketWord body) (h : BracketWord rest) :
    BracketWord ('[' :: (body ++ ']' :: rest))

theorem brackets_append (s t : List Char) : brackets (s ++ t) = brackets s ++ brackets t :=
  List.filter_append ..

theorem brackets_eq_nil {text : List Char} (h : ∀ s ∈ text, ¬ isBracket s = true) :
    brackets text = [] :=
  List.filter_eq_nil_iff.2 h

theorem Balanced.append_others {front text : List Char} (hf : ∀ s ∈ front, ¬ isBracket s = true)
    (h : Balanced text) : Balanced (front ++ text) := by
  induction front with
  | nil => exact h
  | cons s front ih =>
    have hs := hf s List.mem_cons_self
    simp only [isBracket, Bool.or_eq_true, decide_eq_true_eq, not_or] at hs
    exact .other hs.1 hs.2 (ih fun t ht => hf t (List.mem_cons_of_mem s ht))

theorem Balanced.bracketWord {text : List Char} (h : Balanced text) :
    BracketWord (brackets text) := by
  induction h with
  | nil => exact .nil
  | @other s rest ho hc _ ih =>
    have hs : isBracket s = false := by simp [isBracket, ho, hc]
    rwa [brackets, List.filter_cons_of_neg (by simp [hs])]
  | @loop body rest _ _ ihb ih =>
    have hb : brackets ('[' :: (body ++ ']' :: rest)) =
        '[' :: (brackets body ++ ']' :: brackets rest) := by
      simp [brackets, isBracket]
    rw [hb]
    exact .loop ihb ih

theorem BracketWord.balanced {word : List Char} (hw : BracketWord word) :
    ∀ text, brackets text = word → Balanced text := by
  induction hw with
  | nil =>
    intro text h
    simpa using Balanced.append_others (List.filter_eq_nil_iff.1 h) .nil
  | @loop body rest _ _ ihb ih =>
    intro text h
    -- the text is cut at the two brackets; what is no bracket goes in front of the next one
    obtain ⟨front, tail, rfl, hfront, -, htail⟩ := List.filter_eq_cons_iff.1 h
    obtain ⟨inside, tail, rfl, hinside, htail⟩ := List.filter_eq_append_iff.1 htail
    obtain ⟨gap, behind, rfl, hgap, -, hbehind⟩ := List.filter_eq_cons_iff.1 htail
    have hbody : Balanced (inside ++ gap) := by
      apply ihb
      rw [brackets_append, brackets_eq_nil hgap, List.append_nil]
      exact hinside
    have hloop := Balanced.loop hbody (ih behind hbehind)
    rw [List.append_assoc] at hloop
    exact hloop.append_others hfront

theorem balanced_iff {text : List Char} : Balanced text ↔ BracketWord (brackets text) :=
  ⟨Balanced.bracketWord, fun h => h.balanced text rfl⟩

/-- The symbol at `c` is a closer behind the position `o`, and the brackets between the two form a
word. Nothing is said about the symbol at `o`. -/
structure Closes (text : List Char) (o c : ℕ) : Prop where
  lt : o < c
  lt_length : c < text.length
  closer : text[c]? = some ']'
  word : BracketWord (brackets ((text.take c).drop (o + 1)))

theorem closes_iff {text : List Char} {o c : ℕ} :
    Closes text o c ↔ closerWithin 0 (o + 1) (text.drop (o + 1)) = some (c : Int) := by
  rw [closerWithin_zero_eq_some_iff]
  constructor
  · intro h
    obtain ⟨hlt, hc⟩ := List.getElem?_eq_some_iff.1 h.closer
    have hsplit : text.drop (o + 1) = (text.take c).drop (o + 1) ++ text.drop c := by
      have hlen : o + 1 ≤ (text.take c).length := by
        have := h.lt
        rw [List.length_take]
        omega
      conv_lhs => rw [← List.take_append_drop c text]
      rw [List.drop_append_of_le_length hlen]
    refine ⟨(text.take c).drop (o + 1), text.drop (c + 1), ?_, balanced_iff.2 h.word, ?_⟩
    · rw [hsplit, ← hc, List.getElem_cons_drop]
    · have := h.lt
      rw [List.length_drop, List.length_take]
      omega
  · rintro ⟨body, rest, hd, hb, hc⟩
    obtain rfl : c = o + 1 + body.length := by omega
    have hat : text[o + 1 + body.length]? = some ']' := by
      rw [← List.getElem?_drop, hd, List.getElem?_append_right (Nat.le_refl _), Nat.sub_self]
      rfl
    have hbody : (text.take (o + 1 + body.length)).drop (o + 1) = body := by
      rw [List.drop_take, Nat.add_sub_cancel_left, hd, List.take_left]
    refine ⟨by omega, (List.getElem?_eq_some_iff.1 hat).1, hat, ?_⟩
    rw [hbody]
    exact hb.bracketWord

theorem Closes.unique {text : List Char} {o c d : ℕ} (h : Closes text o c) (h' : Closes text o d) :
    c = d :=
  Int.ofNat.inj (Option.some.inj ((closes_iff.1 h).symm.trans (closes_iff.1 h')))

namespace Program

/-- From any position on, the search finds the closer that the grammar gives to it. -/
theorem closerOf_natCast_eq_ok_iff {p : Program} {o : ℕ} {c : Int} :
    p.closerOf o = .ok c ↔ ∃ k : ℕ, c = k ∧ Closes p.toList o k := by
  rw [closerOf_natCast]
  cases h : closerWithin 0 (o + 1) (p.toList.drop (o + 1)) with
  | none =>
    simp only [reduceCtorEq, false_iff]
    rintro ⟨k, -, hk⟩
    rw [closes_iff, h] at hk
    cases hk
  | some d =>
    obtain ⟨body, -, -, -, rfl⟩ := closerWithin_zero_eq_some_iff.1 h
    simp only [Except.ok.injEq]
    constructor
    · rintro rfl
      exact ⟨o + 1 + body.length, by push_cast; rfl, closes_iff.2 (by rw [h]; push_cast; rfl)⟩
    · rintro ⟨k, rfl, hk⟩
      exact Option.some.inj (h.symm.trans (closes_iff.1 hk))

theorem closerOf_natCast_eq_error_iff {p : Program} {o : ℕ} :
    p.closerOf o = .error (.unmatchedOpener o) ↔ ∀ k, ¬ Closes p.toList o k := by
  constructor
  · intro h k hk
    have hok := closerOf_natCast_eq_ok_iff.2 ⟨k, rfl, hk⟩
    rw [h] at hok
    cases hok
  · intro h
    cases hc : p.closerOf o with
    | error f => rw [closerOf_eq_error (Int.natCast_nonneg o) hc]
    | ok c =>
      obtain ⟨k, -, hk⟩ := closerOf_natCast_eq_ok_iff.1 hc
      exact absurd hk (h k)

end Program

end TapeMachine
