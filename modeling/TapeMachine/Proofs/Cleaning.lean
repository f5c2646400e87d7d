import TapeMachine.Proofs.Relocation

namespace TapeMachine

/-- How many of the first `i` symbols are instructions. -/
def rankIn (text : List Char) (i : ℕ) : ℕ := (clean (text.take i)).length

theorem clean_cons (s : Char) (text : List Char) :
    clean (s :: text) = if isForeign s then clean text else s :: clean text := by
  cases h : isForeign s <;> simp [clean, h]

theorem rankIn_succ {text : List Char} {i : ℕ} {s : Char} (h : text[i]? = some s) :
    rankIn text (i + 1) = rankIn text i + if isForeign s then 0 else 1 := by
  rw [rankIn, List.take_add_one, h, clean_append, List.length_append, rankIn]
  congr 1
  rw [Option.toList_some, clean_cons]
  split <;> rfl

theorem rankIn_mono (text : List Char) {i j : ℕ} (h : i ≤ j) : rankIn text i ≤ rankIn text j := by
  obtain ⟨d, rfl⟩ := Nat.exists_eq_add_of_le h
  rw [rankIn, rankIn, List.take_add, clean_append, List.length_append]
  exact Nat.le_add_right _ _

theorem rankIn_length (text : List Char) : rankIn text text.length = (clean text).length := by
  rw [rankIn, List.take_length]

theorem clean_take_append (text : List Char) (i : ℕ) :
    clean text = clean (text.take i) ++ clean (text.drop i) := by
  rw [← clean_append, List.take_append_drop]

theorem drop_rankIn (text : List Char) (i : ℕ) :
    (clean text).drop (rankIn text i) = clean (text.drop i) := by
  rw [clean_take_append text i]
  exact List.drop_left

theorem getElem?_rankIn {text : List Char} {i : ℕ} {s : Char} (h : text[i]? = some s)
    (hs : isForeign s = false) : (clean text)[rankIn text i]? = some s := by
  have hdrop : text.drop i = s :: text.drop (i + 1) := by
    obtain ⟨hlt, hi⟩ := List.getElem?_eq_some_iff.1 h
    rw [← hi, List.getElem_cons_drop]
  rw [← List.head?_drop, drop_rankIn, hdrop, clean_cons, hs]
  rfl

/-- The search for a closer finds the same closer, if `g` counts on at instructions only. -/
theorem closerWithin_clean {g : Int → Int} {text : List Char} {i : Int} (depth : ℕ)
    (hg : ∀ (k : ℕ) s, text[k]? = some s → g (i + k + 1) = g (i + k) + if isForeign s then 0 else 1) :
    closerWithin depth (g i) (clean text) = (closerWithin depth i text).map g := by
  induction text generalizing depth i with
  | nil => rfl
  | cons s text ih =>
    have hfirst : g (i + 1) = g i + if isForeign s then 0 else 1 := by simpa using hg 0 s rfl
    have hrest (k : ℕ) (r : Char) (hr : text[k]? = some r) :
        g (i + 1 + k + 1) = g (i + 1 + k) + if isForeign r then 0 else 1 := by
      have hk : i + ((k + 1 : ℕ) : Int) = i + 1 + k := by omega
      have h := hg (k + 1) r (by simpa using hr)
      rwa [hk] at h
    cases hs : isForeign s with
    | true =>
      -- the cleaned text does not have this symbol, which is no bracket
      have ho : s ≠ '[' := by rintro rfl; cases hs
      have hc : s ≠ ']' := by rintro rfl; cases hs
      rw [hs, if_pos rfl, Int.add_zero] at hfirst
      rw [clean_cons, hs, if_pos rfl, ← hfirst, ih depth hrest]
      simp only [closerWithin, ho, hc, if_false]
    | false =>
      rw [hs] at hfirst
      have hnext (d : ℕ) : closerWithin d (g i + 1) (clean text) =
          (closerWithin d (i + 1) text).map g := by
        rw [← ih d hrest, hfirst]
        rfl
      rw [clean_cons, hs]
      simp only [Bool.false_eq_true, if_false, closerWithin, hnext]
      split
      · rfl
      · split
        · cases depth <;> rfl
        · rfl

namespace Program

def cleaned (p : Program) : Program := ofList (clean p.toList)

/-- The position in the cleaned program that a position of the program becomes. -/
def rank (p : Program) (i : Int) : Int := rankIn p.toList i.toNat

def isForeignAt (p : Program) (i : Int) : Bool :=
  match p.symbolAt i with
  | .ok s => isForeign s
  | .error _ => false

variable {p : Program} {i j o c : Int} {k k' : Instruction}

theorem exists_symbol_of_instructionAt (hi : 0 ≤ i) (h : p.instructionAt i = .ok k) :
    ∃ n : ℕ, i = n ∧ p.toList[n]? = some k.symbol := by
  obtain ⟨n, rfl⟩ := Int.eq_ofNat_of_zero_le hi
  exact ⟨n, rfl, instructionAt_natCast.1 h⟩

theorem rank_natCast_succ {n : ℕ} {s : Char} (h : p.toList[n]? = some s) :
    p.rank (n + 1) = p.rank n + if isForeign s then 0 else 1 := by
  rw [rank, rank, ← Int.natCast_succ, Int.toNat_natCast, Int.toNat_natCast, rankIn_succ h]
  split <;> rfl

theorem rank_succ (hi : 0 ≤ i) (h : p.instructionAt i = .ok k) : p.rank (i + 1) = p.rank i + 1 := by
  obtain ⟨n, rfl, hn⟩ := exists_symbol_of_instructionAt hi h
  rw [rank_natCast_succ hn, isForeign_symbol]
  rfl

theorem rank_mono (p : Program) (h : i ≤ j) : p.rank i ≤ p.rank j :=
  Int.ofNat_le.2 (rankIn_mono _ (Int.toNat_le_toNat h))

theorem rank_lt (hi : 0 ≤ i) (h : p.instructionAt i = .ok k) (hij : i < j) : p.rank i < p.rank j := by
  have hle := p.rank_mono (Int.add_one_le_of_lt hij)
  rw [rank_succ hi h] at hle
  omega

theorem rank_eq_iff (hi : 0 ≤ i) (hj : 0 ≤ j) (h : p.instructionAt i = .ok k)
    (h' : p.instructionAt j = .ok k') : p.rank i = p.rank j ↔ i = j := by
  constructor
  · intro he
    obtain hlt | heq | hlt := Int.lt_trichotomy i j
    · have := rank_lt hi h hlt
      omega
    · exact heq
    · have := rank_lt hj h' hlt
      omega
  · exact congrArg p.rank

theorem rank_size (p : Program) : p.rank p.size = p.cleaned.size := by
  rw [rank, Int.toNat_natCast, ← length_toList, rankIn_length]
  rfl

theorem instructionAt_rank (hi : 0 ≤ i) (h : p.instructionAt i = .ok k) :
    p.cleaned.instructionAt (p.rank i) = .ok k := by
  obtain ⟨n, rfl, hn⟩ := exists_symbol_of_instructionAt hi h
  exact instructionAt_natCast.2 (getElem?_rankIn hn (isForeign_symbol k))

theorem rank_lt_size (hi : 0 ≤ i) (h : p.instructionAt i = .ok k) : p.rank i < p.cleaned.size := by
  obtain ⟨n, rfl, hn⟩ := exists_symbol_of_instructionAt hi h
  have hlt := (List.getElem?_eq_some_iff.1 hn).1
  rw [← rank_size]
  rw [length_toList] at hlt
  exact rank_lt hi h (Int.ofNat_lt.2 hlt)

theorem closerOf_rank (ho : 0 ≤ o) (h : p.instructionAt o = .ok .openLoop) :
    p.cleaned.closerOf (p.rank o) = match p.closerOf o with
      | .ok c => .ok (p.rank c)
      | .error f => .error (f.relocate p.rank) := by
  have hnext := rank_succ ho h
  obtain ⟨n, rfl⟩ := Int.eq_ofNat_of_zero_le ho
  have hdrop : p.cleaned.toList.drop (rankIn p.toList n + 1) = clean (p.toList.drop (n + 1)) := by
    have hr : rankIn p.toList (n + 1) = rankIn p.toList n + 1 := Int.ofNat.inj hnext
    rw [← drop_rankIn, hr]
    rfl
  have hsearch : closerWithin 0 (p.rank (n + 1)) (clean (p.toList.drop (n + 1))) =
      (closerWithin 0 (n + 1) (p.toList.drop (n + 1))).map p.rank := by
    refine closerWithin_clean 0 fun k s hs => ?_
    rw [List.getElem?_drop] at hs
    exact_mod_cast rank_natCast_succ hs
  rw [hnext] at hsearch
  rw [show p.rank n = (rankIn p.toList n : ℕ) from rfl] at hsearch ⊢
  rw [closerOf_natCast, closerOf_natCast, hdrop, hsearch]
  cases closerWithin 0 (n + 1) (p.toList.drop (n + 1)) <;> rfl

theorem instructionAt_of_isForeignAt {s : Char} (h : p.symbolAt i = .ok s)
    (hs : isForeign s = true) : p.instructionAt i = .error (.foreignSymbol s i) := by
  rw [isForeign, Option.isNone_iff_eq_none] at hs
  simp only [instructionAt, h, hs]

theorem exists_instructionAt (hi : 0 ≤ i) (hlt : i < p.size) (h : p.isForeignAt i = false) :
    ∃ k, p.instructionAt i = .ok k := by
  obtain ⟨s, hs⟩ := exists_symbolAt hi hlt
  rw [isForeignAt, hs] at h
  obtain ⟨k, hk⟩ := Option.isSome_iff_exists.1 (Option.isNone_eq_false_iff.1 h)
  exact ⟨k, by simp only [instructionAt, hs, hk]⟩

end Program

variable {c : Config} {p : Program} {m : Machine}

theorem Machine.step_cleaned (hm : m.Tracked p) (hh : m.hasHalted p = false)
    (hf : p.isForeignAt m.ip = false) :
    ((relocation p.rank).machine m).step c p.cleaned =
      (relocation p.rank).step (m.step c p) := by
  have hlt : m.ip < p.size := by simpa [hasHalted] using hh
  obtain ⟨k, hk⟩ := Program.exists_instructionAt hm.nonneg hlt hf
  have hk' : p.cleaned.instructionAt ((relocation p.rank).machine m).ip = .ok k :=
    Program.instructionAt_rank hm.nonneg hk
  rw [step_eq_perform hk, step_eq_perform hk']
  -- the table holds positions of instructions only, and of these no two have one rank
  refine perform_relocate (Program.rank_succ hm.nonneg hk) ?_ ?_
  · rintro rfl
    constructor
    · refine LoopTable.resolve_relocate (fun l hl => ?_) (Program.closerOf_rank hm.nonneg hk)
      have hloop := hm.sound l.1 l.2 hl
      exact Program.rank_eq_iff hloop.nonneg hm.nonneg hloop.instructionAt_opener hk
    · intro d t hr
      have hloop := LoopTable.hasLoop_of_resolve hm.sound hk hm.nonneg hr
      have hd : 0 ≤ d := Int.le_trans hloop.nonneg (Int.le_of_lt hloop.lt)
      exact Program.rank_succ hd hloop.instructionAt_closer
  · rintro rfl
    constructor
    · refine LoopTable.openerOf_relocate fun l hl => ?_
      have hloop := hm.sound l.1 l.2 hl
      have hl2 : 0 ≤ l.2 := Int.le_trans hloop.nonneg (Int.le_of_lt hloop.lt)
      exact Program.rank_eq_iff hl2 hm.nonneg hloop.instructionAt_closer hk
    · intro o ho
      have hloop := LoopTable.hasLoop_of_openerOf hm.sound ho
      exact Program.rank_succ hloop.nonneg hloop.instructionAt_opener

theorem cleaned_kept (c : Config) (p : Program) : (relocation p.rank).Kept
    (fun r => r.machine.Tracked p ∧ p.isForeignAt r.machine.ip = false)
    (p.interpreter c) (p.cleaned.interpreter c) where
  hasHalted r hr := by
    obtain ⟨ht, hf⟩ := hr
    have hiff : (p.cleaned.size : Int) ≤ p.rank r.machine.ip ↔ (p.size : Int) ≤ r.machine.ip := by
      constructor
      · intro h
        by_contra hlt
        obtain ⟨k, hk⟩ := Program.exists_instructionAt ht.nonneg (Int.not_le.1 hlt) hf
        exact absurd (Program.rank_lt_size ht.nonneg hk) (Int.not_lt.2 h)
      · intro h
        rw [← Program.rank_size]
        exact p.rank_mono h
    exact decide_eq_decide.2 hiff
  limit _ := rfl
  record _ _ := rfl
  stepLimit _ := rfl
  step _ hr hh _ := Machine.step_cleaned hr.1 hh hr.2

/-- A run comes to a foreign symbol only to fail there, unless its steps are used up. -/
theorem Run.turn_of_isForeignAt {r : Run} {s : Char} (ht : r.machine.Tracked p)
    (hs : p.symbolAt r.machine.ip = .ok s) (hf : isForeign s = true)
    (hl : c.limitReached? r.tally.steps = none) :
    r.turn c p = .failed (.foreignSymbol s r.machine.ip) r := by
  have hh : r.machine.hasHalted p = false := by
    obtain ⟨n, hn⟩ := Int.eq_ofNat_of_zero_le ht.nonneg
    rw [hn, Program.symbolAt_natCast] at hs
    have hlt : n < p.toList.length := by
      by_contra hge
      rw [List.getElem?_eq_none (Nat.not_lt.1 hge)] at hs
      cases hs
    rw [Program.length_toList] at hlt
    simpa [Machine.hasHalted, hn] using hlt
  have hstep := Machine.step_of_error (c := c) (Program.instructionAt_of_isForeignAt hs hf)
  exact Interpreter.turn_of_failed (x := p.interpreter c) hh hl hstep

/-- As long as a program as it was written comes to no foreign symbol, it runs like the cleaned
program, each position being the number of instructions before it; and it fails at the first
foreign symbol to which it comes. -/
theorem forward_cleaned (c : Config) (source : String) (input : List UInt8) (n : ℕ) :
    let p := Program.ofText source
    let q := Program.ofSource source
    ((∀ k < n, ∀ r, (Run.start c input).forward c p k = .running r →
        p.isForeignAt r.machine.ip = false) →
      (Run.start c input).forward c q n =
        (relocation p.rank).progress ((Run.start c input).forward c p n) ∧
      (Run.start c input).history c q n =
        ((Run.start c input).history c p n).map (relocation p.rank).executed) ∧
    ∀ r s, (Run.start c input).forward c p n = .running r →
      p.symbolAt r.machine.ip = .ok s → isForeign s = true →
      c.limitReached? r.tally.steps = none →
        (Run.start c input).forward c p (n + 1) = .failed (.foreignSymbol s r.machine.ip) r := by
  intro p q
  constructor
  · intro h
    have hk := (cleaned_kept c p).lockstep (r := .start c input) n fun k hk r hr => by
      rw [p.forward_interpreter] at hr
      exact ⟨Run.tracked_of_running hr, h k hk r hr⟩
    rwa [p.forward_interpreter, p.cleaned.forward_interpreter] at hk
  · intro r s hr hs hf hl
    have ht := Run.turn_of_isForeignAt (Run.tracked_of_running hr) hs hf hl
    rw [Run.forward_add, hr]
    simp only [Run.forward, ht]

theorem cleaned_until_comment :
    let c : Config := { memorySize := 1 }
    let p := Program.ofText "[x]+[y]"
    let q := Program.ofSource "[x]+[y]"
    let run (p : Program) (k : ℕ) := (Run.start c []).forward c p k
    let r := (run p 3).run
    (∀ k < 3, ∀ s, run p k = .running s → p.isForeignAt s.machine.ip = false) ∧
      run q 3 = (relocation p.rank).progress (run p 3) ∧
      run p 3 = .running r ∧ r.machine.ip = 5 ∧ p.rank 5 = 4 ∧
      run p 4 = .failed (.foreignSymbol 'y' 5) r := by
  intro c p q run r
  have hsteps : ∀ k < 3, p.isForeignAt (run p k).run.machine.ip = false := by decide
  have hnone : ∀ k < 3, ∀ s, run p k = .running s → p.isForeignAt s.machine.ip = false := by
    intro k hk s hs
    have h := hsteps k hk
    rwa [hs] at h
  have hr : run p 3 = .running r := by decide
  obtain ⟨hsame, hfails⟩ := forward_cleaned c "[x]+[y]" [] 3
  exact ⟨hnone, (hsame hnone).1, hr, by decide, by decide,
    hfails r 'y' hr (by decide) (by decide) (by decide)⟩

end TapeMachine
