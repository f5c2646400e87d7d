import TapeMachine.Program.Census
import TapeMachine.Proofs.Matching
import Mathlib.Order.Bounds.Basic

namespace TapeMachine

theorem le_of_closerWithin {depth : ℕ} {i c : Int} {text : List Char}
    (h : closerWithin depth i text = some c) : i ≤ c := by
  induction text generalizing depth i with
  | nil => cases h
  | cons s text ih =>
    simp only [closerWithin] at h
    split_ifs at h
    · have := ih h
      omega
    · cases depth with
      | zero => exact Int.le_of_eq (Option.some.inj h)
      | succ d =>
        have := ih h
        omega
    · have := ih h
      omega

/-- The text does not end `depth + 1` open loops before position `j`. -/
def staysOpen (depth j : ℕ) (text : List Char) : Bool :=
  (closerWithin depth 0 text).all fun c => (j : Int) ≤ c

/-- How many openers before position `j` have no closer before it. -/
def openersAt (j : ℕ) (text : List Char) : ℕ :=
  (List.range j).countP fun o =>
    text[o]? = some '[' && staysOpen 0 (j - (o + 1)) (text.drop (o + 1))

/-- How many loops are open at position `j` of a text that begins with `depth` open loops. -/
def openAt (depth j : ℕ) (text : List Char) : ℕ :=
  (List.range depth).countP (fun k => staysOpen k j text) + openersAt j text

/-- How many loops are open behind a symbol. A closer outside all loops closes nothing. -/
def depthAfter (depth : ℕ) (s : Char) : ℕ :=
  if s = '[' then depth + 1 else if s = ']' then depth - 1 else depth

theorem deepest_cons (depth : ℕ) (s : Char) (text : List Char) :
    deepest depth (s :: text) = max depth (deepest (depthAfter depth s) text) := by
  have hle := le_deepest (depthAfter depth s) text
  unfold depthAfter at *
  rw [deepest]
  split_ifs at * <;> omega

theorem staysOpen_zero (depth : ℕ) (text : List Char) : staysOpen depth 0 text = true := by
  unfold staysOpen
  cases h : closerWithin depth 0 text with
  | none => rfl
  | some c => simpa using le_of_closerWithin h

theorem staysOpen_succ (depth j : ℕ) (text : List Char) :
    ((closerWithin depth 1 text).all fun c => ((j + 1 : ℕ) : Int) ≤ c) =
      staysOpen depth j text := by
  rw [staysOpen, show (1 : Int) = 0 + 1 from rfl, closerWithin_shift]
  cases closerWithin depth 0 text with
  | none => rfl
  | some c => simp

theorem staysOpen_opener (depth j : ℕ) (text : List Char) :
    staysOpen depth (j + 1) ('[' :: text) = staysOpen (depth + 1) j text :=
  staysOpen_succ (depth + 1) j text

theorem staysOpen_closer (depth j : ℕ) (text : List Char) :
    staysOpen (depth + 1) (j + 1) (']' :: text) = staysOpen depth j text :=
  staysOpen_succ depth j text

theorem not_staysOpen_closer (j : ℕ) (text : List Char) :
    staysOpen 0 (j + 1) (']' :: text) = false := by
  simp [staysOpen, closerWithin]

theorem staysOpen_other {s : Char} (ho : s ≠ '[') (hc : s ≠ ']') (depth j : ℕ) (text : List Char) :
    staysOpen depth (j + 1) (s :: text) = staysOpen depth j text := by
  rw [← staysOpen_succ depth j text]
  simp only [staysOpen, closerWithin, if_neg ho, if_neg hc, Int.zero_add]

theorem countP_range_succ (f : ℕ → Bool) (n : ℕ) :
    (List.range (n + 1)).countP f =
      (List.range n).countP (fun k => f (k + 1)) + if f 0 then 1 else 0 := by
  rw [List.range_succ_eq_map, List.countP_cons, List.countP_map]
  rfl

theorem openersAt_cons (j : ℕ) (s : Char) (text : List Char) :
    openersAt (j + 1) (s :: text) =
      openersAt j text + if s = '[' ∧ staysOpen 0 j text = true then 1 else 0 := by
  rw [openersAt, countP_range_succ]
  simp [openersAt]

theorem openAt_zero (depth : ℕ) (text : List Char) : openAt depth 0 text = depth := by
  have hall : (List.range depth).countP (fun k => staysOpen k 0 text) = depth := by
    rw [List.countP_eq_length.2 fun k _ => staysOpen_zero k text, List.length_range]
  rw [openAt, hall, openersAt, List.range_zero, List.countP_nil, Nat.add_zero]

theorem openAt_cons (depth j : ℕ) (s : Char) (text : List Char) :
    openAt depth (j + 1) (s :: text) = openAt (depthAfter depth s) j text := by
  rw [openAt, openersAt_cons, openAt, depthAfter]
  by_cases ho : s = '['
  · -- the opener joins the loops that were open before
    subst ho
    simp only [staysOpen_opener, if_true, true_and]
    rw [countP_range_succ (fun k => staysOpen k j text)]
    omega
  · by_cases hc : s = ']'
    · subst hc
      simp only [ho, if_false, if_true, false_and]
      cases depth with
      | zero => rfl
      | succ d =>
        -- the innermost of them ends
        rw [countP_range_succ]
        simp only [staysOpen_closer, not_staysOpen_closer]
        rfl
    · simp only [ho, hc, if_false, false_and, staysOpen_other ho hc]
      rfl

theorem isGreatest_deepest (depth : ℕ) (text : List Char) :
    IsGreatest ((fun j => openAt depth j text) '' Set.Iic text.length) (deepest depth text) := by
  induction text generalizing depth with
  | nil =>
    refine ⟨⟨0, Nat.le_refl 0, openAt_zero depth []⟩, ?_⟩
    rintro n ⟨j, hj, rfl⟩
    obtain rfl := Nat.le_zero.1 hj
    exact Nat.le_of_eq (openAt_zero depth [])
  | cons s text ih =>
    obtain ⟨⟨j, hj, hdeep⟩, hmax⟩ := ih (depthAfter depth s)
    rw [deepest_cons]
    constructor
    · -- the most loops are open at the start or behind the first symbol
      obtain h | h := Nat.le_total (deepest (depthAfter depth s) text) depth
      · exact ⟨0, Nat.zero_le _, by rw [Nat.max_eq_left h]; exact openAt_zero depth _⟩
      · refine ⟨j + 1, Nat.succ_le_succ hj, ?_⟩
        rw [Nat.max_eq_right h, ← hdeep]
        exact openAt_cons depth j s text
    · rintro n ⟨k, hk, rfl⟩
      cases k with
      | zero => exact (Nat.le_of_eq (openAt_zero depth _)).trans (Nat.le_max_left ..)
      | succ k =>
        have hin : openAt (depthAfter depth s) k text ≤ deepest (depthAfter depth s) text :=
          hmax ⟨k, Nat.le_of_succ_le_succ hk, rfl⟩
        exact (Nat.le_of_eq (openAt_cons depth k s text)).trans
          (hin.trans (Nat.le_max_right ..))

namespace Program

/-- An opener whose closer is not before position `j`, or is missing. -/
def isOpenAt (p : Program) (j o : ℕ) : Bool :=
  p.symbolAt o = .ok '[' && match p.closerOf o with
    | .ok c => j ≤ c
    | .error f => f = .unmatchedOpener o

def openLoops (p : Program) (j : ℕ) : ℕ := (List.range j).countP (p.isOpenAt j)

theorem isOpenAt_eq (p : Program) {j o : ℕ} (h : o < j) :
    p.isOpenAt j o =
      (p.toList[o]? = some '[' && staysOpen 0 (j - (o + 1)) (p.toList.drop (o + 1))) := by
  have hsymbol : (decide (p.symbolAt o = .ok '[')) = decide (p.toList[o]? = some '[') := by
    rw [symbolAt_natCast]
    cases p.toList[o]? <;> simp
  have hshift : closerWithin 0 (o + 1) (p.toList.drop (o + 1)) =
      (closerWithin 0 0 (p.toList.drop (o + 1))).map (· + ((o : Int) + 1)) := by
    rw [← closerWithin_shift, Int.zero_add]
  rw [isOpenAt, hsymbol, closerOf_natCast, hshift, staysOpen]
  congr 1
  cases closerWithin 0 0 (p.toList.drop (o + 1)) with
  | none => simp
  | some c =>
    simp only [Option.map_some, Option.all_some, decide_eq_decide]
    omega

theorem openLoops_eq (p : Program) (j : ℕ) : p.openLoops j = openAt 0 j p.toList := by
  rw [openLoops, openAt, openersAt, List.range_zero, List.countP_nil, Nat.zero_add]
  refine List.countP_congr fun o ho => ?_
  rw [p.isOpenAt_eq (List.mem_range.1 ho)]

/-- The deepest nesting is the largest number of loops that the search for closers leaves open at
one position of the text, its end included. -/
theorem maxLoopDepth_isGreatest (p : Program) :
    IsGreatest (p.openLoops '' Set.Iic p.size) p.maxLoopDepth := by
  have hopen : p.openLoops = fun j => openAt 0 j p.toList := funext p.openLoops_eq
  rw [hopen, ← length_toList]
  exact isGreatest_deepest 0 p.toList

-- a stray closer closes nothing, and an opener that is never closed stays open
example : (ofList [']', '[', '[', ']', '[']).openLoops 5 = 2 := by decide

end Program

end TapeMachine
