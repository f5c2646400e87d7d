import TapeMachine.Program.Census
import TapeMachine.Proofs.Cleaning
import TapeMachine.Proofs.Concatenation
import Mathlib.Algebra.GroupWithZero.Nat
import Mathlib.Data.List.Count
import Mathlib.Data.List.Induction
import Mathlib.Data.List.Nodup
import Mathlib.Order.Bounds.Basic

namespace TapeMachine

namespace Instruction

theorem name_injective : Function.Injective name := by
  intro k l
  cases k <;> cases l <;> decide

/-- The symbols that stand for an instruction. -/
def alphabet : Set Char := Set.range symbol

theorem mem_alphabet_iff {s : Char} : s ∈ alphabet ↔ isForeign s = false := by
  rw [isForeign, Option.isNone_eq_false_iff, Option.isSome_iff_exists]
  refine exists_congr fun k => ?_
  rw [ofSymbol?_eq_some_iff, eq_comm]

instance (s : Char) : Decidable (s ∈ alphabet) := decidable_of_iff _ mem_alphabet_iff.symm

/-- Instructions alone make up a text, or a foreign symbol stands behind the first of them. -/
theorem symbols_or_foreign (text : List Char) :
    (∃ ks : List Instruction, text = ks.map symbol) ∨
      ∃ (ks : List Instruction) (s : Char) (rest : List Char),
        text = ks.map symbol ++ s :: rest ∧ s ∉ alphabet := by
  induction text with
  | nil => exact .inl ⟨[], rfl⟩
  | cons s text ih =>
    by_cases hs : s ∈ alphabet
    · obtain ⟨k, rfl⟩ := hs
      obtain ⟨ks, rfl⟩ | ⟨ks, s, rest, rfl, hs⟩ := ih
      · exact .inl ⟨k :: ks, rfl⟩
      · exact .inr ⟨k :: ks, s, rest, rfl, hs⟩
    · exact .inr ⟨[], s, text, rfl, hs⟩

theorem exists_symbols {text : List Char} (h : ∀ s ∈ text, s ∈ alphabet) :
    ∃ ks : List Instruction, text = ks.map symbol := by
  obtain hks | ⟨ks, s, rest, rfl, hs⟩ := symbols_or_foreign text
  · exact hks
  · exact absurd (h s (List.mem_append_right _ List.mem_cons_self)) hs

theorem idxOf_symbol (ks : List Instruction) (k : Instruction) :
    (ks.map symbol).idxOf k.symbol = ks.idxOf k := by
  rw [List.idxOf, List.idxOf, List.findIdx_map]
  congr 1
  funext l
  rw [Function.comp_apply, Bool.eq_iff_iff, beq_iff_eq, beq_iff_eq]
  exact ⟨symbol_injective, congrArg symbol⟩

end Instruction

namespace Census

def keys (c : Census) : List Instruction := c.map Prod.fst

def names (c : Census) : List String := c.map fun e => e.1.name

/-- An instruction that was not met was met zero times. -/
def amount : Census → Instruction → ℕ
  | [], _ => 0
  | (l, n) :: c, k => if l = k then n else amount c k

/-- How many instructions were met in all. -/
def total (c : Census) : ℕ := (c.map Prod.snd).sum

/-- The census of instructions that are met one after the other. -/
def ofList (ks : List Instruction) : Census := ks.foldl add []

theorem names_eq (c : Census) : c.names = c.keys.map Instruction.name := by
  rw [keys, List.map_map]
  rfl

theorem keys_add (c : Census) (k : Instruction) :
    (c.add k).keys = if k ∈ c.keys then c.keys else c.keys ++ [k] := by
  induction c with
  | nil => rfl
  | cons e c ih =>
    obtain ⟨l, n⟩ := e
    by_cases h : l = k
    · subst h
      simp [add_cons_self, keys]
    · have hmem : k ∈ keys ((l, n) :: c) ↔ k ∈ keys c := by simp [keys, Ne.symm h]
      rw [add_cons_of_ne h, if_congr hmem rfl rfl]
      calc keys ((l, n) :: add c k) = l :: keys (add c k) := rfl
        _ = l :: if k ∈ keys c then keys c else keys c ++ [k] := by rw [ih]
        _ = _ := apply_ite (l :: ·) _ _ _

theorem amount_add (c : Census) (k l : Instruction) :
    (c.add k).amount l = c.amount l + if k = l then 1 else 0 := by
  induction c with
  | nil => simp [add, amount]
  | cons e c ih =>
    obtain ⟨m, n⟩ := e
    by_cases hk : m = k
    · subst hk
      rw [add_cons_self, amount, amount]
      split <;> rfl
    · rw [add_cons_of_ne hk, amount, amount, ih]
      by_cases hl : m = l
      · subst hl
        simp [Ne.symm hk]
      · simp [hl]

theorem total_add (c : Census) (k : Instruction) : (c.add k).total = c.total + 1 := by
  induction c with
  | nil => rfl
  | cons e c ih =>
    obtain ⟨l, n⟩ := e
    have hcons (n : ℕ) (c : Census) : total ((l, n) :: c) = n + c.total := List.sum_cons
    by_cases h : l = k
    · subst h
      rw [add_cons_self, hcons, hcons, Nat.add_right_comm]
    · rw [add_cons_of_ne h, hcons, hcons, ih, Nat.add_assoc]

theorem ofList_append_singleton (ks : List Instruction) (k : Instruction) :
    ofList (ks ++ [k]) = (ofList ks).add k := List.foldl_append

/-- Of the keys that are added to a census, those are listed that it does not have. -/
theorem keys_foldl_add (c : Census) (ks : List Instruction) :
    (ks.foldl add c).keys = c.keys ++ (ofList ks).keys.filter (· ∉ c.keys) := by
  induction ks using List.reverseRecOn with
  | nil => simp [ofList, keys]
  | append_singleton ks k ih =>
    rw [List.foldl_append, List.foldl_cons, List.foldl_nil, keys_add, ih,
      ofList_append_singleton, keys_add]
    by_cases hc : k ∈ c.keys <;> by_cases hks : k ∈ (ofList ks).keys <;>
      simp [hc, hks, List.filter_append]

theorem amount_foldl_add (c : Census) (ks : List Instruction) (k : Instruction) :
    (ks.foldl add c).amount k = c.amount k + ks.count k := by
  induction ks generalizing c with
  | nil => rfl
  | cons l ks ih =>
    rw [List.foldl_cons, ih, amount_add, List.count_cons, Nat.add_assoc, Nat.add_comm (ks.count k)]
    simp only [beq_iff_eq]

theorem amount_of_mem {c : Census} (h : c.keys.Nodup) {e : Instruction × ℕ} (he : e ∈ c) :
    c.amount e.1 = e.2 := by
  induction c with
  | nil => cases he
  | cons d c ih =>
    obtain ⟨l, n⟩ := d
    obtain ⟨hl, hc⟩ := List.nodup_cons.1 h
    obtain rfl | he := List.mem_cons.1 he
    · exact if_pos rfl
    · have hmem : e.1 ∈ keys c := List.mem_map_of_mem he
      have hne : l ≠ e.1 := fun hle => hl (hle ▸ hmem)
      rw [amount, if_neg hne, ih hc he]

theorem amount_ofList (ks : List Instruction) (k : Instruction) :
    (ofList ks).amount k = ks.count k := by
  rw [ofList, amount_foldl_add]
  exact Nat.zero_add _

theorem total_ofList (ks : List Instruction) : (ofList ks).total = ks.length := by
  induction ks using List.reverseRecOn with
  | nil => rfl
  | append_singleton ks k ih =>
    rw [ofList_append_singleton, total_add, ih, List.length_append, List.length_singleton]

theorem mem_keys_ofList {ks : List Instruction} {k : Instruction} :
    k ∈ (ofList ks).keys ↔ k ∈ ks := by
  induction ks using List.reverseRecOn with
  | nil => rfl
  | append_singleton ks l ih =>
    rw [ofList_append_singleton, keys_add, List.mem_append, List.mem_singleton]
    split <;> rename_i hl
    · rw [ih, iff_self_or]
      rintro rfl
      exact ih.1 hl
    · rw [List.mem_append, List.mem_singleton, ih]

/-- The keys are listed as they occur first. -/
theorem ordered_ofList (ks : List Instruction) :
    (ofList ks).keys.Pairwise fun k l => ks.idxOf k < ks.idxOf l := by
  induction ks using List.reverseRecOn with
  | nil => exact .nil
  | append_singleton ks k ih =>
    have hold : (ofList ks).keys.Pairwise fun l m =>
        (ks ++ [k]).idxOf l < (ks ++ [k]).idxOf m := by
      refine ih.imp_of_mem fun hl hm h => ?_
      rwa [List.idxOf_append_of_mem (mem_keys_ofList.1 hl),
        List.idxOf_append_of_mem (mem_keys_ofList.1 hm)]
    rw [ofList_append_singleton, keys_add]
    split <;> rename_i hk
    · exact hold
    · -- the new key stands behind all that occurred before
      refine List.pairwise_append.2 ⟨hold, List.pairwise_singleton _ _, fun l hl m hm => ?_⟩
      obtain rfl := List.mem_singleton.1 hm
      have hl := mem_keys_ofList.1 hl
      rw [List.idxOf_append_of_mem hl, List.idxOf_append_of_notMem (mt mem_keys_ofList.2 hk)]
      exact Nat.lt_add_right _ (List.idxOf_lt_length_of_mem hl)

theorem nodup_keys_ofList (ks : List Instruction) : (ofList ks).keys.Nodup :=
  (ordered_ofList ks).imp fun h he => Nat.ne_of_lt h (congrArg ks.idxOf he)

theorem snd_of_mem_ofList {ks : List Instruction} {e : Instruction × ℕ} (he : e ∈ ofList ks) :
    e.2 = ks.count e.1 := by
  rw [← amount_of_mem (nodup_keys_ofList ks) he, amount_ofList]

theorem names_ofList_append (ks ls : List Instruction) : (ofList (ks ++ ls)).names =
    (ofList ks).names ++ (ofList ls).names.filter (· ∉ (ofList ks).names) := by
  have hkeys : (ofList (ks ++ ls)).keys =
      (ofList ks).keys ++ (ofList ls).keys.filter (· ∉ (ofList ks).keys) := by
    rw [← keys_foldl_add, ofList, List.foldl_append]
    rfl
  simp only [names_eq, hkeys, List.map_append, List.filter_map, Function.comp_def,
    List.mem_map_of_injective Instruction.name_injective]

/-- The counts of a text: under the names of the instructions that occur in it, each of them once
and in the order of their first occurrences, the numbers of positions that hold them. -/
structure IsHistogram (c : Census) (text : List Char) : Prop where
  mem_names : ∀ name, name ∈ c.names ↔ ∃ k : Instruction, k.symbol ∈ text ∧ k.name = name
  nodup_names : c.names.Nodup
  ordered : c.Pairwise fun e f => text.idxOf e.1.symbol < text.idxOf f.1.symbol
  amount : ∀ e ∈ c, e.2 = text.count e.1.symbol
  total : c.total = text.length

theorem isHistogram_ofList (ks : List Instruction) :
    (ofList ks).IsHistogram (ks.map Instruction.symbol) where
  mem_names name := by
    rw [names_eq, List.mem_map]
    refine exists_congr fun k => and_congr_left' ?_
    rw [mem_keys_ofList, List.mem_map_of_injective @Instruction.symbol_injective]
  nodup_names := by
    rw [names_eq]
    exact (nodup_keys_ofList ks).map Instruction.name_injective
  ordered := by
    have h := ordered_ofList ks
    rw [keys, List.pairwise_map] at h
    simpa only [Instruction.idxOf_symbol] using h
  amount e he := by
    rw [List.count_map_of_injective ks _ @Instruction.symbol_injective]
    exact snd_of_mem_ofList he
  total := by rw [total_ofList, List.length_map]

end Census

namespace Program

open Instruction

variable {p : Program} {n : ℕ} {ks : List Instruction}

theorem censusTo_succ (p : Program) (n : ℕ) :
    p.censusTo (n + 1) = (p.censusTo n).bind fun c => (p.instructionAt n).map c.add := by
  rw [censusTo, List.range_succ, List.foldlM_append]
  refine congrArg _ (funext fun c => ?_)
  rw [List.foldlM_cons]
  exact bind_pure _

theorem censusTo_of_error {f : Fault} {m : ℕ} (h : p.censusTo n = .error f) (hm : n ≤ m) :
    p.censusTo m = .error f := by
  induction m, hm using Nat.le_induction with
  | base => exact h
  | succ m hm ih => rw [censusTo_succ, ih]; rfl

/-- As long as there are instructions only, they are counted one after the other. -/
theorem censusTo_of_prefix (h : ks.map symbol <+: p.toList) :
    p.censusTo ks.length = .ok (.ofList ks) := by
  induction ks using List.reverseRecOn with
  | nil => rfl
  | append_singleton ks k ih =>
    rw [List.map_append] at h
    have hks := ih ((List.prefix_append _ _).trans h)
    have hk : p.instructionAt ks.length = .ok k := by
      obtain ⟨rest, hrest⟩ := h
      rw [instructionAt_natCast, ← hrest]
      simp
    rw [List.length_append, List.length_singleton, censusTo_succ, hks,
      Census.ofList_append_singleton]
    simp only [Except.bind, hk, Except.map]

theorem census_of_symbols (h : p.toList = ks.map symbol) : p.census = .ok (.ofList ks) := by
  rw [census, ← length_toList, h, List.length_map]
  exact censusTo_of_prefix (h ▸ List.prefix_rfl)

theorem census_of_foreign {s : Char} {rest : List Char}
    (h : p.toList = ks.map symbol ++ s :: rest) (hs : s ∉ alphabet) :
    p.census = .error (.foreignSymbol s ks.length) := by
  have hsize : ks.length + 1 ≤ p.size := by
    rw [← length_toList, h]
    simp
  have hat : p.instructionAt ks.length = .error (.foreignSymbol s ks.length) := by
    refine instructionAt_of_isForeignAt ?_ (Bool.of_not_eq_false (mt mem_alphabet_iff.2 hs))
    rw [symbolAt_natCast, h]
    simp
  refine censusTo_of_error ?_ hsize
  rw [censusTo_succ, censusTo_of_prefix (h ▸ List.prefix_append _ _)]
  simp only [Except.bind, hat, Except.map]

/-- The positions of a text at which no instruction stands. -/
def foreignPositions (text : List Char) : Set ℕ := {i | ∃ s, text[i]? = some s ∧ s ∉ alphabet}

theorem isLeast_foreignPositions (ks : List Instruction) {s : Char} (rest : List Char)
    (hs : s ∉ alphabet) : IsLeast (foreignPositions (ks.map symbol ++ s :: rest)) ks.length := by
  refine ⟨⟨s, by simp, hs⟩, ?_⟩
  rintro i ⟨s', hi, hs'⟩
  by_contra hlt
  rw [List.getElem?_append_left (by simpa using hlt), List.getElem?_map] at hi
  obtain ⟨k, -, rfl⟩ := Option.map_eq_some_iff.1 hi
  exact hs' ⟨k, rfl⟩

theorem foreign_of_census {f : Fault} (h : p.census = .error f) :
    ∃ (i : ℕ) (s : Char), f = .foreignSymbol s i ∧ p.toList[i]? = some s ∧ s ∉ alphabet ∧
      IsLeast (foreignPositions p.toList) i := by
  obtain ⟨ks, hks⟩ | ⟨ks, s, rest, hks, hs⟩ := symbols_or_foreign p.toList
  · cases (census_of_symbols hks).symm.trans h
  · have hf := Except.error.inj ((census_of_foreign hks hs).symm.trans h)
    refine ⟨ks.length, s, hf.symm, by simp [hks], hs, ?_⟩
    rw [hks]
    exact isLeast_foreignPositions ks rest hs

theorem exists_error_of_foreign {s : Char} (h : s ∈ p.toList) (hs : s ∉ alphabet) :
    ∃ f, p.census = .error f := by
  obtain ⟨ks, hks⟩ | ⟨ks, s', rest, hks, hs'⟩ := symbols_or_foreign p.toList
  · rw [hks] at h
    obtain ⟨k, -, rfl⟩ := List.mem_map.1 h
    exact absurd ⟨k, rfl⟩ hs
  · exact ⟨_, census_of_foreign hks hs'⟩

theorem exists_isHistogram (h : ∀ s ∈ p.toList, s ∈ alphabet) :
    ∃ c, p.census = .ok c ∧ c.IsHistogram p.toList := by
  obtain ⟨ks, hks⟩ := exists_symbols h
  exact ⟨_, census_of_symbols hks, hks ▸ Census.isHistogram_ofList ks⟩

/-- The census of a text fails exactly if there is a foreign symbol in it, and then it names the
first one; otherwise it is the histogram of the text, as it always is for a cleaned source. Where
one text follows another, its new names follow those of the other, and the amounts are added. -/
theorem census_histogram (p q : Program) (source : String) :
    ((∃ f, p.census = .error f) ↔ ∃ s ∈ p.toList, s ∉ alphabet) ∧
    (∀ f, p.census = .error f → ∃ (i : ℕ) (s : Char), f = .foreignSymbol s i ∧
      p.toList[i]? = some s ∧ IsLeast (foreignPositions p.toList) i) ∧
    ((∀ s ∈ p.toList, s ∈ alphabet) → ∃ c, p.census = .ok c ∧ c.IsHistogram p.toList) ∧
    (∃ c, (ofSource source).census = .ok c ∧ c.IsHistogram (clean source.toList)) ∧
    ((∀ s ∈ p.toList, s ∈ alphabet) → (∀ s ∈ q.toList, s ∈ alphabet) →
      ∃ c d e, p.census = .ok c ∧ q.census = .ok d ∧ (p ++ q).census = .ok e ∧
        e.names = c.names ++ d.names.filter (· ∉ c.names) ∧
        ∀ x ∈ e, x.2 = c.amount x.1 + d.amount x.1) := by
  refine ⟨⟨?_, ?_⟩, ?_, exists_isHistogram, ?_, ?_⟩
  · rintro ⟨f, hf⟩
    obtain ⟨i, s, -, hi, hs, -⟩ := foreign_of_census hf
    exact ⟨s, List.mem_of_getElem? hi, hs⟩
  · rintro ⟨s, hmem, hs⟩
    exact exists_error_of_foreign hmem hs
  · intro f hf
    obtain ⟨i, s, hfault, hi, -, hleast⟩ := foreign_of_census hf
    exact ⟨i, s, hfault, hi, hleast⟩
  · exact exists_isHistogram fun s hs => mem_alphabet_iff.2 (not_isForeign_of_mem_clean hs)
  · intro hp hq
    obtain ⟨ks, hks⟩ := exists_symbols hp
    obtain ⟨ls, hls⟩ := exists_symbols hq
    have happend : (p ++ q).toList = (ks ++ ls).map symbol := by
      rw [toList_append, hks, hls, List.map_append]
    refine ⟨_, _, _, census_of_symbols hks, census_of_symbols hls, census_of_symbols happend,
      Census.names_ofList_append ks ls, fun x hx => ?_⟩
    rw [Census.snd_of_mem_ofList hx, List.count_append, Census.amount_ofList, Census.amount_ofList]

theorem histogram_behind_loop :
    let p := ofList ['+', '[', '-', ']', '+']
    let q := ofList ['>', '+', '.']
    let r := ofList ['+', 'x', '-', 'y']
    (∀ s ∈ p.toList, s ∈ alphabet) ∧ (∀ s ∈ q.toList, s ∈ alphabet) ∧
    (∃ c d e, p.census = .ok c ∧ q.census = .ok d ∧ (p ++ q).census = .ok e ∧
      c.names = ["INC_MEMORY", "JUMP_IF_ZERO", "DEC_MEMORY", "JUMP_IF_NOT_ZERO"] ∧
      e.names = c.names ++ ["INC_POINTER", "OUTPUT"] ∧
      ∀ x ∈ e, x.2 = c.amount x.1 + d.amount x.1) ∧
    r.census = .error (.foreignSymbol 'x' 1) ∧ IsLeast (foreignPositions r.toList) 1 := by
  intro p q r
  have hp : ∀ s ∈ p.toList, s ∈ alphabet := List.forall_iff_forall_mem.1 (by decide)
  have hq : ∀ s ∈ q.toList, s ∈ alphabet := List.forall_iff_forall_mem.1 (by decide)
  have hr : r.census = .error (.foreignSymbol 'x' 1) := rfl
  obtain ⟨-, -, -, -, happend⟩ := census_histogram p q ""
  obtain ⟨c, d, e, hc, hd, he, hnames, hamounts⟩ := happend hp hq
  obtain ⟨-, hfirst, -⟩ := census_histogram r q ""
  obtain ⟨i, s, hi, -, hleast⟩ := hfirst _ hr
  refine ⟨hp, hq, ⟨c, d, e, hc, hd, he, ?_, ?_, hamounts⟩, hr, ?_⟩
  · obtain rfl := Except.ok.inj hc
    decide
  · rw [hnames]
    obtain rfl := Except.ok.inj hc
    obtain rfl := Except.ok.inj hd
    decide
  · cases hi
    exact hleast

end Program

end TapeMachine
