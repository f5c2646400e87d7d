import TapeMachine.Proofs.Addressing
import Mathlib.Data.List.DropRight

namespace TapeMachine

/-- What a read put into its cell: the byte that it got, or zero if that is the answer to the end
of the input. -/
def Effect.stored? (c : Config) (e : Effect) : Option UInt8 :=
  match e.instruction, e.read with
  | .read, some b => some b
  | .read, none => if c.eof = .zero then some 0 else none
  | _, _ => none

/-- The instruction was executed at the cell `j`. -/
def Executed.touches (c : Config) (j : ℕ) (a : Executed) : Bool :=
  a.effect.instruction.addresses ∧ c.bounds.place c.memorySize a.before.dp = j

namespace Run

/-- The tape must reach behind every cell that was addressed. -/
def reach (c : Config) (es : List Executed) : Int :=
  ((es.filter fun a => a.effect.instruction.addresses).map fun a => a.before.dp + 1).foldl max
    c.memorySize

def lastStored (c : Config) (es : List Executed) : UInt8 :=
  (es.filterMap fun a => a.effect.stored? c).getLast?.getD 0

def sinceStored (c : Config) (es : List Executed) : List Executed :=
  es.rtakeWhile fun a => (a.effect.stored? c).isNone

/-- The value stored last, counted up and down by what was executed since then. -/
def balance (c : Config) (es : List Executed) : Int :=
  (((lastStored c es).toNat : Int) + count .increment (sinceStored c es) -
    count .decrement (sinceStored c es)) % 256

variable {c : Config} {es : List Executed} {a : Executed}

theorem reach_append (c : Config) (es : List Executed) (a : Executed) :
    reach c (es ++ [a]) =
      if a.effect.instruction.addresses then max (reach c es) (a.before.dp + 1)
      else reach c es := by
  unfold reach
  cases h : a.effect.instruction.addresses <;> simp [h, List.foldl_append]

theorem balance_append_of_stored {b : UInt8} (h : a.effect.stored? c = some b) :
    balance c (es ++ [a]) = b.toNat := by
  have hlast : lastStored c (es ++ [a]) = b := by
    simp [lastStored, List.filterMap_append, h]
  have hsince : sinceStored c (es ++ [a]) = [] := by
    rw [sinceStored, List.rtakeWhile_concat, if_neg (by simp [h])]
  have hb := b.toNat_lt
  rw [balance, hlast, hsince]
  simp only [count, List.countP_nil]
  omega

theorem balance_append_of_none (h : a.effect.stored? c = none) :
    balance c (es ++ [a]) =
      (balance c es + (if a.effect.instruction = .increment then 1 else 0) -
        if a.effect.instruction = .decrement then 1 else 0) % 256 := by
  have hlast : lastStored c (es ++ [a]) = lastStored c es := by
    simp [lastStored, List.filterMap_append, h]
  have hsince : sinceStored c (es ++ [a]) = sinceStored c es ++ [a] := by
    rw [sinceStored, List.rtakeWhile_concat, if_pos (by simp [h])]
    rfl
  simp only [balance, hlast, hsince, count_append]
  split <;> split <;> push_cast <;> omega

end Run

namespace Effect

variable {c : Config} {e : Effect}

theorem pointerMove_eq (e : Effect) : e.pointerMove =
    (if e.instruction = .moveRight then 1 else 0) - if e.instruction = .moveLeft then 1 else 0 := by
  unfold pointerMove
  cases e.instruction <;> rfl

theorem cellAfter_of_stored {b : UInt8} (h : e.stored? c = some b) (v : UInt8) :
    e.cellAfter c v = b := by
  unfold stored? at h
  unfold cellAfter
  cases hk : e.instruction with
  | read =>
    rw [hk] at h
    cases hr : e.read with
    | some d => simpa [hr] using h
    | none =>
      rw [hr] at h
      dsimp only at h ⊢
      split at h <;> rename_i hz
      · rw [if_pos hz]
        exact Option.some.inj h
      · cases h
  | _ => simp [hk] at h

theorem toNat_cellAfter_of_none (h : e.stored? c = none) (v : UInt8) :
    ((e.cellAfter c v).toNat : Int) =
      (v.toNat + (if e.instruction = .increment then 1 else 0) -
        if e.instruction = .decrement then 1 else 0) % 256 := by
  have hv := v.toNat_lt
  unfold cellAfter
  cases hk : e.instruction with
  | increment =>
    have hone : (v + 1).toNat = (v.toNat + 1) % 256 := UInt8.toNat_add v 1
    simp only [reduceCtorEq, if_true, if_false, hone]
    omega
  | decrement =>
    have hone : (v - 1).toNat = (256 - 1 + v.toNat) % 256 := UInt8.toNat_sub v 1
    simp only [reduceCtorEq, if_true, if_false, hone]
    omega
  | read =>
    unfold stored? at h
    rw [hk] at h
    cases hr : e.read with
    | some b => simp [hr] at h
    | none =>
      have hz : c.eof ≠ .zero := by simpa [hr] using h
      simp only [hz, reduceCtorEq, if_false]
      omega
  | _ =>
    simp only [reduceCtorEq, if_false]
    omega

end Effect

theorem Run.balance_append {c : Config} {es : List Executed} {v : UInt8}
    (h : (v.toNat : Int) = balance c es) (a : Executed) :
    ((a.effect.cellAfter c v).toNat : Int) = balance c (es ++ [a]) := by
  cases hs : a.effect.stored? c with
  | some b => rw [Effect.cellAfter_of_stored hs, balance_append_of_stored hs]
  | none => rw [Effect.toNat_cellAfter_of_none hs, balance_append_of_none hs, h]

namespace Machine

variable {c : Config} {p : Program} {m m' : Machine} {e : Effect} {es : List Executed} {j : ℕ}

structure Follows (c : Config) (m : Machine) (es : List Executed) : Prop where
  sized : m.Sized c
  dp : m.dp = (Run.count .moveRight es : Int) - Run.count .moveLeft es
  size : c.bounds = .grow → (m.tape.size : Int) = Run.reach c es
  read : ∀ j, ((m.tape.read j).toNat : Int) = Run.balance c (es.filter (·.touches c j))

theorem read_of_not_touches (h : m.Sized c) (hs : m.step c p = .done e m')
    (ht : Executed.touches c j ⟨m, e⟩ = false) : m'.tape.read j = m.tape.read j := by
  obtain ⟨-, htape⟩ | ⟨ha, i, hi, htape⟩ := tape_of_step hs
  · rw [htape]
  · have hne : i ≠ j := by
      rintro rfl
      simp [Executed.touches, ha, ← h.natCast_of_cell hi] at ht
    rw [htape, Tape.read_store, if_neg fun hij => hne hij.1, Tape.read_cover]

theorem read_of_touches (h : m.Sized c) (hs : m.step c p = .done e m')
    (ht : Executed.touches c j ⟨m, e⟩ = true) :
    m'.tape.read j = e.cellAfter c (m.tape.read j) := by
  simp only [Executed.touches, Bool.decide_and, Bool.decide_eq_true, Bool.and_eq_true,
    decide_eq_true_eq] at ht
  obtain ⟨ha', -⟩ | ⟨ha, i, hi, htape⟩ := tape_of_step hs
  · rw [ha'] at ht
    cases ht.1
  · have hij : i = j := Int.ofNat.inj ((h.natCast_of_cell hi).trans ht.2)
    have hlt : i < (m.tape.cover i).size := by
      rw [Tape.size_cover]
      omega
    rw [htape, Tape.read_store, if_pos ⟨hij, hlt⟩, hij]

namespace Follows

theorem start (c : Config) (input : List UInt8) : (Machine.start c input).Follows c [] where
  sized := .start c input
  dp := rfl
  size _ := congrArg Int.ofNat (Tape.size_blank _)
  read j := congrArg (fun v : UInt8 => (v.toNat : Int)) (Tape.read_blank c.memorySize j)

theorem size_step (h : m.Follows c es) (hs : m.step c p = .done e m') (hb : c.bounds = .grow) :
    (m'.tape.size : Int) = Run.reach c (es ++ [⟨m, e⟩]) := by
  have hsize := h.size hb
  rw [Run.reach_append]
  obtain ⟨ha, ht⟩ | ⟨ha, i, hi, ht⟩ := tape_of_step hs
  · rw [ha, ht, hsize]
    rfl
  · have hdp : (i : Int) = m.dp := by
      rw [h.sized.natCast_of_cell hi, hb]
      rfl
    rw [if_pos ha, ht, Tape.size_store, Tape.size_cover, ← hsize, ← hdp]
    omega

theorem step (h : m.Follows c es) (hs : m.step c p = .done e m') :
    m'.Follows c (es ++ [⟨m, e⟩]) where
  sized := h.sized.step hs
  dp := by
    rw [(acts_of_step hs).dp, h.dp, Effect.pointerMove_eq, Run.count_append, Run.count_append]
    dsimp only
    split <;> split <;> push_cast <;> omega
  size hb := h.size_step hs hb
  read j := by
    rw [List.filter_append, List.filter_singleton]
    cases ht : Executed.touches c j ⟨m, e⟩ with
    | true =>
      rw [read_of_touches h.sized hs ht]
      exact Run.balance_append (h.read j) ⟨m, e⟩
    | false =>
      rw [read_of_not_touches h.sized hs ht, h.read j, cond_false, List.append_nil]

end Follows

end Machine

/-- What has been executed tells everything about the data pointer and the tape: the pointer has
gone as far as it was moved, a growing tape reaches just behind the farthest cell that was
addressed, and each cell holds the value that was stored in it last, counted up and down by the
instructions executed at that cell since. What is executed at other cells does not touch it. -/
theorem Run.tape_of_history (c : Config) (p : Program) (input : List UInt8) (n : ℕ) (r : Run)
    (h : (Run.start c input).forward c p n = .running r) :
    let es := (Run.start c input).history c p n
    (∀ a ∈ es, p.instructionAt a.before.ip = .ok a.effect.instruction) ∧
    r.machine.dp = (count .moveRight es : Int) - count .moveLeft es ∧
    (c.bounds ≠ .grow → r.machine.tape.size = c.memorySize) ∧
    (c.bounds = .grow → (r.machine.tape.size : Int) = reach c es) ∧
    (∀ j, ((r.machine.tape.read j).toNat : Int) = balance c (es.filter (·.touches c j))) ∧
    ∀ e m j, r.machine.step c p = .done e m → Executed.touches c j ⟨r.machine, e⟩ = false →
      m.tape.read j = r.machine.tape.read j := by
  intro es
  rw [← p.forward_interpreter] at h
  have hf : r.machine.Follows c es :=
    Interpreter.running_induction (I := fun r es => r.machine.Follows c es) (.start c input)
      (fun _ _ _ _ hr _ hs => hr.step hs) h
  refine ⟨fun _ => instructionAt_of_mem_history, hf.dp, hf.sized.eq, hf.size, hf.read, ?_⟩
  intro e m j hs ht
  exact Machine.read_of_not_touches hf.sized hs ht

theorem Run.tape_of_circle :
    let c : Config := { memorySize := 2, eof := .zero, bounds := .wrap }
    let d : Config := { memorySize := 1, bounds := .grow }
    let p := Program.ofList [',', '>', '>', '+', '<', ',', '-', '+']
    let q := Program.ofList ['>', '>', '.', '<']
    let r := ((Run.start c [254]).forward c p 7).run
    let s := ((Run.start d []).forward d q 4).run
    ((Run.start c [254]).forward c p 7 = .running r ∧ r.machine.dp = 1 ∧
      r.machine.tape.size = 2 ∧ ((r.machine.tape.read 0).toNat : Int) = (254 + 1 - 0) % 256 ∧
      ((r.machine.tape.read 1).toNat : Int) = (0 + 0 - 1) % 256 ∧
      ∀ e m, r.machine.step c p = .done e m → m.tape.read 0 = r.machine.tape.read 0) ∧
    (Run.start d []).forward d q 4 = .running s ∧ s.machine.dp = 1 ∧
      (s.machine.tape.size : Int) = max 1 (2 + 1) := by
  intro c d p q r s
  have hr : (Run.start c [254]).forward c p 7 = .running r := by decide
  have hs : (Run.start d []).forward d q 4 = .running s := by decide
  obtain ⟨-, hdp, hsize, -, hread, hother⟩ := tape_of_history c p [254] 7 r hr
  obtain ⟨-, hdp', -, hreach, -, -⟩ := tape_of_history d q [] 4 s hs
  refine ⟨⟨hr, hdp.trans (by decide), hsize (by decide), (hread 0).trans (by decide),
    (hread 1).trans (by decide), ?_⟩, hs, hdp'.trans (by decide), (hreach rfl).trans (by decide)⟩
  intro e m he
  -- the pointer has come to the other cell
  have hplace : c.bounds.place c.memorySize r.machine.dp = 1 := by decide
  exact hother e m 0 he (by simp [Executed.touches, hplace])

end TapeMachine
