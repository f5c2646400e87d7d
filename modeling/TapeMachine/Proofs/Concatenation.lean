import TapeMachine.Proofs.Tracking

namespace TapeMachine

instance : Append Program := ⟨fun p q => ⟨p.symbols ++ q.symbols⟩⟩

/-- The same fault further on in a program. -/
def Fault.shift (d : Int) : Fault → Fault
  | unmatchedOpener i => unmatchedOpener (d + i)
  | unpairedCloser i => unpairedCloser (d + i)
  | foreignSymbol s i => foreignSymbol s (d + i)
  | inputExhausted i => inputExhausted (d + i)
  | cellOutOfRange pointer size i => cellOutOfRange pointer size (d + i)
  | f => f

namespace Program

variable {p q : Program}

@[simp] theorem toList_append (p q : Program) : (p ++ q).toList = p.toList ++ q.toList :=
  Array.toList_append

@[simp] theorem size_append (p q : Program) : (p ++ q).size = p.size + q.size :=
  Array.size_append

theorem instructionAt_append_left {i : Int} (h : 0 ≤ i) (hi : i < p.size) :
    (p ++ q).instructionAt i = p.instructionAt i := by
  obtain ⟨i, rfl⟩ := Int.eq_ofNat_of_zero_le h
  have hlt : i < p.toList.length := by
    rw [length_toList]
    exact Int.ofNat_lt.1 hi
  simp only [instructionAt, symbolAt_natCast, toList_append, List.getElem?_append_left hlt]

theorem symbolAt_append_right (p : Program) {i : ℕ} (hi : i < q.size) :
    (p ++ q).symbolAt (p.size + i) = q.symbolAt i := by
  have hlt : i < q.toList.length := by rwa [length_toList]
  rw [← Int.natCast_add, symbolAt_natCast, symbolAt_natCast, toList_append,
    List.getElem?_append_right (by rw [length_toList]; omega), length_toList,
    Nat.add_sub_cancel_left, List.getElem?_eq_getElem hlt]

theorem instructionAt_append_of_ok {i : ℕ} {k : Instruction} (hi : i < q.size)
    (h : q.instructionAt i = .ok k) : (p ++ q).instructionAt (p.size + i) = .ok k := by
  unfold instructionAt at h ⊢
  rw [symbolAt_append_right p hi]
  split at h
  · cases h
  · split at h <;> cases h
    simp [*]

theorem instructionAt_append_of_error {i : ℕ} {f : Fault} (hi : i < q.size)
    (h : q.instructionAt i = .error f) :
    (p ++ q).instructionAt (p.size + i) = .error (f.shift p.size) := by
  unfold instructionAt at h ⊢
  rw [symbolAt_append_right p hi]
  have hlt : i < q.toList.length := by rwa [length_toList]
  rw [symbolAt_natCast, List.getElem?_eq_getElem hlt] at h ⊢
  dsimp only at h ⊢
  split at h <;> cases h
  simp [*, Fault.shift]

theorem HasLoop.append {o c : Int} (h : p.HasLoop o c) (q : Program) : (p ++ q).HasLoop o c := by
  obtain ⟨a, b, rfl, rfl, h⟩ := h
  exact ⟨a, b, rfl, rfl, by simpa using h.embed [] q.toList⟩

/-- The search for a closer behind a text is the search without that text. -/
theorem closerOf_append (p q : Program) (i : ℕ) :
    (p ++ q).closerOf (p.size + i) = match q.closerOf i with
      | .ok c => .ok (p.size + c)
      | .error f => .error (f.shift p.size) := by
  -- the text behind the opener is the same, and only its positions differ
  have hdrop : (p.toList ++ q.toList).drop (p.size + i + 1) = q.toList.drop (i + 1) := by
    rw [Nat.add_assoc, ← length_toList p, ← List.drop_drop, List.drop_left]
  rw [← Int.natCast_add, closerOf_natCast, closerOf_natCast, toList_append, hdrop, Int.natCast_add,
    show (p.size : Int) + i + 1 = i + 1 + p.size by omega, closerWithin_shift]
  cases closerWithin 0 (i + 1) (q.toList.drop (i + 1)) with
  | none => rfl
  | some c => exact congrArg Except.ok (Int.add_comm c p.size)

end Program

namespace LoopTable

/-- The entries of `t` moved on by `d`, before those of `t₀`. -/
def behind (t₀ : LoopTable) (d : Int) (t : LoopTable) : LoopTable :=
  ⟨t.recorded.map (fun l => (d + l.1, d + l.2)) ++ t₀.recorded⟩

variable {t₀ t t' : LoopTable} {p : Program} {o c : Int}

theorem resolve_append_of_ok {q : Program} (hi : p.instructionAt o = .ok .openLoop) (ho : 0 ≤ o)
    (h : t.resolve p o = .ok (c, t')) : t.resolve (p ++ q) o = .ok (c, t') := by
  unfold resolve at h ⊢
  cases ht : t.closer? o with
  | some d => rwa [ht] at h
  | none =>
    simp only [ht] at h ⊢
    cases hc : p.closerOf o with
    | error f => simp [hc] at h
    | ok d =>
      have hloop := ((Program.closerOf_eq_ok_iff hi ho).1 hc).append q
      rw [hc] at h
      rwa [(Program.closerOf_eq_ok_iff hloop.instructionAt_opener ho).2 hloop]

/-- Behind a table that holds only smaller keys, the look-up is that of the table moved on. -/
theorem find?_behind {d k : Int} (key : Int × Int → Int)
    (hkey : ∀ l, key (d + l.1, d + l.2) = d + key l) (h₀ : ∀ l ∈ t₀.recorded, key l < d)
    (hk : 0 ≤ k) : (t₀.behind d t).recorded.find? (fun l => key l = d + k) =
      (t.recorded.find? fun l => key l = k).map fun l => (d + l.1, d + l.2) := by
  have hnone : t₀.recorded.find? (fun l => key l = d + k) = none := by
    refine List.find?_eq_none.2 fun l hl => ?_
    have := h₀ l hl
    simp only [decide_eq_true_eq]
    omega
  rw [behind, List.find?_append, hnone, Option.or_none, List.find?_map]
  congr 2
  funext l
  simp [hkey]

theorem closer?_behind (h₀ : t₀.Sound p) (ho : 0 ≤ o) :
    (t₀.behind p.size t).closer? (p.size + o) = (t.closer? o).map ((p.size : Int) + ·) := by
  have hlt (l : Int × Int) (hl : l ∈ t₀.recorded) : l.1 < p.size :=
    Int.lt_trans (h₀ l.1 l.2 hl).lt (h₀ l.1 l.2 hl).lt_size
  simp only [closer?, find?_behind Prod.fst (fun _ => rfl) hlt ho, Option.map_map]
  rfl

theorem opener?_behind (h₀ : t₀.Sound p) (hc : 0 ≤ c) :
    (t₀.behind p.size t).opener? (p.size + c) = (t.opener? c).map ((p.size : Int) + ·) := by
  have hlt (l : Int × Int) (hl : l ∈ t₀.recorded) : l.2 < p.size := (h₀ l.1 l.2 hl).lt_size
  simp only [opener?, find?_behind Prod.snd (fun _ => rfl) hlt hc, Option.map_map]
  rfl

theorem resolve_behind (h₀ : t₀.Sound p) (q : Program) (i : ℕ) :
    (t₀.behind p.size t).resolve (p ++ q) (p.size + i) = match t.resolve q i with
      | .ok (c, t') => .ok (p.size + c, t₀.behind p.size t')
      | .error f => .error (f.shift p.size) := by
  unfold resolve
  rw [closer?_behind h₀ (Int.natCast_nonneg i), Program.closerOf_append]
  cases t.closer? i with
  | some c => rfl
  | none => cases q.closerOf i <;> rfl

theorem openerOf_behind (h₀ : t₀.Sound p) (hc : 0 ≤ c) :
    (t₀.behind p.size t).openerOf (p.size + c) = match t.openerOf c with
      | .ok o => .ok (p.size + o)
      | .error f => .error (f.shift p.size) := by
  unfold openerOf
  rw [opener?_behind h₀ hc]
  cases t.opener? c <;> rfl

end LoopTable

end TapeMachine
