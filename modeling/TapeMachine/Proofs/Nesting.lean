import TapeMachine.Loop.Table
import Mathlib.Data.List.Basic

namespace TapeMachine

/-- A text in which every bracket has its partner. Other symbols do not count. -/
inductive Balanced : List Char → Prop
  | nil : Balanced []
  | other {s : Char} {rest : List Char} (ho : s ≠ '[') (hc : s ≠ ']') (h : Balanced rest) :
    Balanced (s :: rest)
  | loop {body rest : List Char} (hb : Balanced body) (h : Balanced rest) :
    Balanced ('[' :: (body ++ ']' :: rest))

/-- A loop of the text: two brackets and a balanced text between them. -/
def IsLoop (text : List Char) (o c : ℕ) : Prop :=
  ∃ front body back, text = front ++ '[' :: (body ++ ']' :: back) ∧ Balanced body ∧
    o = front.length ∧ c = o + 1 + body.length

theorem closerWithin_append {b : List Char} (hb : Balanced b) (depth : ℕ) (i : Int)
    (rest : List Char) :
    closerWithin depth i (b ++ rest) = closerWithin depth (i + b.length) rest := by
  induction hb generalizing depth i rest with
  | nil => simp
  | @other s b ho hc _ ih =>
    simp only [List.cons_append, closerWithin, if_neg ho, if_neg hc, ih, List.length_cons]
    congr 1
    push_cast
    omega
  | @loop body b _ _ ihb ih =>
    have hne : (']' : Char) ≠ '[' := by decide
    simp only [List.cons_append, List.append_assoc, closerWithin, if_true, ihb, if_neg hne, ih,
      List.length_cons, List.length_append]
    congr 1
    push_cast
    omega

/-- A search that ends has read a balanced text up to the closer of the innermost open loop. -/
theorem exists_balanced_of_closerWithin {depth : ℕ} {i c : Int} {text : List Char}
    (h : closerWithin depth i text = some c) :
    ∃ b rest, text = b ++ ']' :: rest ∧ Balanced b ∧
      match depth with
      | 0 => c = i + b.length
      | d + 1 => closerWithin d (i + b.length + 1) rest = some c := by
  -- on the length, since behind an inner loop the search goes on at the same depth
  induction hn : text.length using Nat.strongRecOn generalizing depth i text with
  | _ n ih =>
  subst hn
  cases text with
  | nil => cases h
  | cons s text =>
    simp only [closerWithin] at h
    split_ifs at h with ho hc
    · -- an inner loop: its closer first, then the one that is looked for
      obtain ⟨b, rest, rfl, hb, hr⟩ := ih _ (Nat.lt_succ_self _) h rfl
      obtain ⟨b', rest', rfl, hb', hr'⟩ := ih rest.length (by simp; omega) hr rfl
      refine ⟨'[' :: (b ++ ']' :: b'), rest', by simp [ho], .loop hb hb', ?_⟩
      have he : i + 1 + b.length + 1 + b'.length = i + ('[' :: (b ++ ']' :: b')).length := by
        simp only [List.length_cons, List.length_append]
        push_cast
        omega
      cases depth with
      | zero => simpa only [he] using hr'
      | succ d => simpa only [he] using hr'
    · refine ⟨[], text, by simp [hc], .nil, ?_⟩
      cases depth with
      | zero => simpa using h.symm
      | succ d => simpa using h
    · obtain ⟨b, rest, rfl, hb, hr⟩ := ih _ (Nat.lt_succ_self _) h rfl
      refine ⟨s :: b, rest, rfl, .other ho hc hb, ?_⟩
      have he : i + 1 + b.length = i + (s :: b).length := by
        simp only [List.length_cons]
        push_cast
        omega
      cases depth with
      | zero => simpa only [he] using hr
      | succ d => simpa only [he] using hr

theorem closerWithin_zero_eq_some_iff {i c : Int} {text : List Char} :
    closerWithin 0 i text = some c ↔
      ∃ b rest, text = b ++ ']' :: rest ∧ Balanced b ∧ c = i + b.length := by
  constructor
  · exact exists_balanced_of_closerWithin
  · rintro ⟨b, rest, rfl, hb, rfl⟩
    rw [closerWithin_append hb]
    rfl

namespace IsLoop

variable {text : List Char} {o c : ℕ}

theorem lt (h : IsLoop text o c) : o < c := by
  obtain ⟨front, body, back, -, -, -, rfl⟩ := h
  omega

theorem lt_length (h : IsLoop text o c) : c < text.length := by
  obtain ⟨front, body, back, rfl, -, rfl, rfl⟩ := h
  simp only [List.length_append, List.length_cons]
  omega

theorem opener (h : IsLoop text o c) : text[o]? = some '[' := by
  obtain ⟨front, body, back, rfl, -, rfl, -⟩ := h
  simp

theorem closer (h : IsLoop text o c) : text[c]? = some ']' := by
  obtain ⟨front, body, back, rfl, -, rfl, rfl⟩ := h
  rw [List.getElem?_append_right (by omega), show front.length + 1 + body.length - front.length =
    body.length + 1 by omega, List.getElem?_cons_succ]
  simp

theorem embed (h : IsLoop text o c) (before after : List Char) :
    IsLoop (before ++ text ++ after) (before.length + o) (before.length + c) := by
  obtain ⟨front, body, back, rfl, hb, rfl, rfl⟩ := h
  exact ⟨before ++ front, body, back ++ after, by simp, hb, by simp, by omega⟩

theorem of_body {body : List Char} (h : IsLoop body o c) (rest : List Char) :
    IsLoop ('[' :: (body ++ ']' :: rest)) (1 + o) (1 + c) := by
  simpa using h.embed ['['] (']' :: rest)

theorem of_rest {rest : List Char} (h : IsLoop rest o c) (body : List Char) :
    IsLoop ('[' :: (body ++ ']' :: rest)) (body.length + 2 + o) (body.length + 2 + c) := by
  have hl := h.embed ('[' :: (body ++ [']'])) []
  simpa using hl

end IsLoop

/-- Behind an opener, the search ends exactly at the closer of its loop. -/
theorem isLoop_iff {text : List Char} {o c : ℕ} :
    IsLoop text o c ↔
      text[o]? = some '[' ∧ closerWithin 0 (o + 1) (text.drop (o + 1)) = some (c : Int) := by
  rw [closerWithin_zero_eq_some_iff]
  constructor
  · intro h
    refine ⟨h.opener, ?_⟩
    obtain ⟨front, body, back, rfl, hb, rfl, rfl⟩ := h
    refine ⟨body, back, ?_, hb, by push_cast; omega⟩
    rw [← List.drop_drop, List.drop_left]
    rfl
  · rintro ⟨ho, body, back, hd, hb, hc⟩
    obtain ⟨hlt, ho⟩ := List.getElem?_eq_some_iff.1 ho
    refine ⟨text.take o, body, back, ?_, hb, by simp; omega, by omega⟩
    rw [← hd, ← ho, List.getElem_cons_drop, List.take_append_drop]

theorem getElem?_of_body {body : List Char} (rest : List Char) {j : ℕ} (hj : j < body.length) :
    ('[' :: (body ++ ']' :: rest))[1 + j]? = body[j]? := by
  rw [Nat.add_comm, List.getElem?_cons_succ, List.getElem?_append_left hj]

theorem getElem?_of_rest (body rest : List Char) (j : ℕ) :
    ('[' :: (body ++ ']' :: rest))[body.length + 2 + j]? = rest[j]? := by
  have hj : body.length + (j + 1) - body.length = j + 1 := by omega
  rw [show body.length + 2 + j = body.length + (j + 1) + 1 by omega, List.getElem?_cons_succ,
    List.getElem?_append_right (by omega), hj, List.getElem?_cons_succ]

theorem Balanced.exists_isLoop {b : List Char} (hb : Balanced b) (k : ℕ) :
    (b[k]? = some '[' → ∃ c, IsLoop b k c) ∧ (b[k]? = some ']' → ∃ o, IsLoop b o k) := by
  induction hb generalizing k with
  | nil => simp
  | @other s b ho hc _ ih =>
    cases k with
    | zero => simp [ho, hc]
    | succ k =>
      have lift {o c : ℕ} (h : IsLoop b o c) : IsLoop (s :: b) (o + 1) (c + 1) := by
        simpa [Nat.add_comm] using h.embed [s] []
      obtain ⟨ihOpener, ihCloser⟩ := ih k
      constructor
      · intro h
        obtain ⟨c, hl⟩ := ihOpener h
        exact ⟨c + 1, lift hl⟩
      · intro h
        obtain ⟨o, hl⟩ := ihCloser h
        exact ⟨o + 1, lift hl⟩
  | @loop body b hb _ ihb ih =>
    have outer : IsLoop ('[' :: (body ++ ']' :: b)) 0 (1 + body.length) :=
      ⟨[], body, b, rfl, hb, rfl, by omega⟩
    -- at the opener, in the body, at its closer, or behind it
    obtain rfl | ⟨j, hj, rfl⟩ | rfl | ⟨j, rfl⟩ : k = 0 ∨ (∃ j, j < body.length ∧ k = 1 + j) ∨
        k = 1 + body.length ∨ ∃ j, k = body.length + 2 + j := by
      by_cases h : k = 0
      · exact .inl h
      by_cases h' : k < 1 + body.length
      · exact .inr (.inl ⟨k - 1, by omega, by omega⟩)
      by_cases h'' : k = 1 + body.length
      · exact .inr (.inr (.inl h''))
      · exact .inr (.inr (.inr ⟨k - (body.length + 2), by omega⟩))
    · exact ⟨fun _ => ⟨_, outer⟩, by simp⟩
    · obtain ⟨ihOpener, ihCloser⟩ := ihb j
      rw [getElem?_of_body b hj]
      constructor
      · intro h
        obtain ⟨c, hl⟩ := ihOpener h
        exact ⟨1 + c, hl.of_body b⟩
      · intro h
        obtain ⟨o, hl⟩ := ihCloser h
        exact ⟨1 + o, hl.of_body b⟩
    · rw [outer.closer]
      exact ⟨by simp, fun _ => ⟨0, outer⟩⟩
    · obtain ⟨ihOpener, ihCloser⟩ := ih j
      rw [getElem?_of_rest]
      constructor
      · intro h
        obtain ⟨c, hl⟩ := ihOpener h
        exact ⟨_, hl.of_rest body⟩
      · intro h
        obtain ⟨o, hl⟩ := ihCloser h
        exact ⟨_, hl.of_rest body⟩

namespace IsLoop

variable {text : List Char} {o o' c c' k : ℕ}

theorem closer_unique (h : IsLoop text o c) (h' : IsLoop text o c') : c = c' := by
  have he := (isLoop_iff.1 h).2.symm.trans (isLoop_iff.1 h').2
  exact Int.ofNat.inj (Option.some.inj he)

/-- Every bracket inside a loop belongs to a loop inside that loop. -/
theorem exists_inside (h : IsLoop text o c) (hk : o < k) (hk' : k < c) :
    (text[k]? = some '[' → ∃ d, d < c ∧ IsLoop text k d) ∧
      (text[k]? = some ']' → ∃ d, o < d ∧ IsLoop text d k) := by
  obtain ⟨front, body, back, rfl, hb, rfl, rfl⟩ := h
  obtain ⟨j, rfl⟩ : ∃ j, k = front.length + (1 + j) := ⟨k - (front.length + 1), by omega⟩
  have lift {a d : ℕ} (hl : IsLoop body a d) : IsLoop (front ++ '[' :: (body ++ ']' :: back))
      (front.length + (1 + a)) (front.length + (1 + d)) := by
    simpa using (hl.of_body back).embed front []
  rw [List.getElem?_append_right (by omega), Nat.add_sub_cancel_left,
    getElem?_of_body back (by omega)]
  constructor
  · intro h
    obtain ⟨d, hl⟩ := (hb.exists_isLoop j).1 h
    have hlt := hl.lt_length
    exact ⟨_, by omega, lift hl⟩
  · intro h
    obtain ⟨d, hl⟩ := (hb.exists_isLoop j).2 h
    exact ⟨_, by omega, lift hl⟩

/-- A loop that begins inside another one ends inside it. -/
theorem nested (h : IsLoop text o c) (h' : IsLoop text o' c') (ho : o < o') (hc : o' ≤ c) :
    c' < c := by
  have hne : o' ≠ c := by
    rintro rfl
    have := h.closer.symm.trans h'.opener
    simp at this
  obtain ⟨d, hd, hl⟩ := (h.exists_inside ho (by omega)).1 h'.opener
  rwa [h'.closer_unique hl]

theorem opener_unique (h : IsLoop text o c) (h' : IsLoop text o' c) : o = o' := by
  rcases Nat.lt_trichotomy o o' with hlt | rfl | hlt
  · exact absurd (h.nested h' hlt (Nat.le_of_lt h'.lt)) (Nat.lt_irrefl c)
  · rfl
  · exact absurd (h'.nested h hlt (Nat.le_of_lt h.lt)) (Nat.lt_irrefl c)

end IsLoop

end TapeMachine
