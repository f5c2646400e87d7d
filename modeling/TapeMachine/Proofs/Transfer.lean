import TapeMachine.Proofs.BracketWords
import TapeMachine.Proofs.Passage

namespace TapeMachine

/-- The loop that counts the cell under the data pointer down to zero and the next one up, by `k`
at a time. -/
def transferLoop (k : ℕ) : List Char := ['[', '>'] ++ List.replicate k '+' ++ ['<', '-', ']']

theorem length_transferLoop (k : ℕ) : (transferLoop k).length = k + 5 := by
  simp only [transferLoop, List.length_append, List.length_replicate, List.length_cons,
    List.length_nil]
  omega

/-- The openers that have a closer in the table are those that its closers have, and its pairs are
loops of the text. -/
structure LoopTable.Matched (t : LoopTable) (p : Program) : Prop where
  inverse : ∀ o d, t.closer? o = some d ↔ t.opener? d = some o
  hasLoop : ∀ o d, t.closer? o = some d → p.HasLoop o d

namespace LoopTable

variable {t : LoopTable} {p : Program} {o d : Int}

theorem Sound.matched (h : t.Sound p) : t.Matched p where
  inverse _ _ := (closer?_eq_some_iff h).trans (opener?_eq_some_iff h).symm
  hasLoop o d hd := h o d (mem_of_closer? hd)

theorem Matched.resolve_hasLoop (h : t.Matched p) (hl : p.HasLoop o d) :
    let t' := if t.contains o then t else t.record o d
    t.resolve p o = .ok (d, t') ∧ t'.openerOf d = .ok o := by
  unfold resolve openerOf contains
  cases ho : t.closer? o with
  | some d' =>
    obtain rfl := (h.hasLoop o d' ho).closer_unique hl
    have hback := (h.inverse o d').1 ho
    simp only [Option.isSome_some, if_true, hback, and_self]
  | none =>
    have hd := (Program.closerOf_eq_ok_iff hl.instructionAt_opener hl.nonneg).2 hl
    simp [hd, opener?_record]

end LoopTable

/-- The program has the loop that transfers by `k` at position `o`. -/
structure Program.HasTransfer (p : Program) (o k : ℕ) : Prop where
  loop : p.HasLoop o (o + k + 4 : ℕ)
  moveRight : p.instructionAt (o + 1 : ℕ) = .ok .moveRight
  increment : ∀ j < k, p.instructionAt (o + 2 + j : ℕ) = .ok .increment
  moveLeft : p.instructionAt (o + 2 + k : ℕ) = .ok .moveLeft
  decrement : p.instructionAt (o + 3 + k : ℕ) = .ok .decrement

theorem hasTransfer_ofList (a b : List Char) (k : ℕ) :
    (Program.ofList (a ++ transferLoop k ++ b)).HasTransfer a.length k := by
  have symbol {j : ℕ} {i : Instruction} (h : (transferLoop k)[j]? = some i.symbol) :
      (Program.ofList (a ++ transferLoop k ++ b)).instructionAt (a.length + j : ℕ) = .ok i := by
    obtain ⟨hj, -⟩ := List.getElem?_eq_some_iff.1 h
    rw [Program.instructionAt_natCast, Program.toList_ofList, List.append_assoc,
      List.getElem?_append_right (by omega), Nat.add_sub_cancel_left,
      List.getElem?_append_left hj, h]
  have behind (j : ℕ) : (transferLoop k)[2 + k + j]? = ['<', '-', ']'][j]? := by
    rw [transferLoop, List.getElem?_append_right (by simp; omega)]
    congr 1
    simp
    omega
  have body : Balanced ('>' :: (List.replicate k '+' ++ ['<', '-'])) := by
    have hothers : ∀ s ∈ '>' :: (List.replicate k '+' ++ ['<', '-']), ¬ isBracket s = true := by
      intro s hs
      simp only [List.mem_cons, List.mem_append, List.mem_replicate, List.not_mem_nil, or_false]
        at hs
      obtain rfl | ⟨-, rfl⟩ | rfl | rfl := hs <;> decide
    simpa using Balanced.append_others hothers .nil
  refine ⟨?_, symbol rfl, fun j hj => ?_, ?_, ?_⟩
  · refine ⟨a.length, a.length + k + 4, rfl, rfl, a, _, b, ?_, body, rfl, ?_⟩
    · simp [transferLoop]
    · simp
      omega
  · rw [Nat.add_assoc]
    refine symbol ?_
    rw [transferLoop, List.append_assoc, List.getElem?_append_right (by simp)]
    simp [List.getElem?_append_left, hj]
    rfl
  · rw [Nat.add_assoc]
    exact symbol (behind 0)
  · rw [show a.length + 3 + k = a.length + (2 + k + 1) by omega]
    exact symbol (behind 1)

def Tape.pair (t : Tape) (d : ℕ) (x y : UInt8) : Tape := (t.store d x).store (d + 1) y

namespace Tape

variable {t : Tape} {d j : ℕ} {x y v : UInt8}

@[simp] theorem size_pair : (t.pair d x y).size = t.size := by
  simp only [pair, size_store]

theorem read_pair_left (h : d + 1 < t.size) : (t.pair d x y).read d = x := by
  rw [pair, read_store_of_ne (by omega), read_store_self (by omega)]

theorem read_pair_right (h : d + 1 < t.size) : (t.pair d x y).read (d + 1) = y := by
  rw [pair, read_store_self (by rwa [size_store])]

theorem read_pair_of_ne (hj : j ≠ d) (hj' : j ≠ d + 1) : (t.pair d x y).read j = t.read j := by
  rw [pair, read_store_of_ne hj'.symm, read_store_of_ne hj.symm]

theorem store_pair_left : (t.pair d x y).store d v = t.pair d v y := by
  rw [pair, store_comm (by omega), store_store, pair]

theorem store_pair_right : (t.pair d x y).store (d + 1) v = t.pair d x v := by
  rw [pair, store_store, pair]

theorem pair_read (t : Tape) (d : ℕ) : t.pair d (t.read d) (t.read (d + 1)) = t := by
  rw [pair, store_read, store_read]

end Tape

theorem add_ofNat_zero (y : UInt8) : y + .ofNat 0 = y := UInt8.add_zero y

theorem add_ofNat_add (y : UInt8) (j k : ℕ) : y + .ofNat j + .ofNat k = y + .ofNat (j + k) := by
  rw [UInt8.add_assoc, ← UInt8.ofNat_add]

namespace Machine

variable {c : Config} {p : Program} {o k d : ℕ} {tape : Tape} {loops : LoopTable} {port : Port}
  {x y : UInt8}

theorem passes_increments (hp : p.HasTransfer o k) (hd : d + 1 < tape.size) {j : ℕ} (hj : j ≤ k) :
    Passes c p o (o + k + 5) j (mk (o + 2 : ℕ) (d + 1 : ℕ) (tape.pair d x y) loops port)
      (mk (o + 2 + j : ℕ) (d + 1 : ℕ) (tape.pair d x (y + .ofNat j)) loops port) := by
  induction j with
  | zero =>
    rw [add_ofNat_zero]
    exact .refl _
  | succ j ih =>
    have hs : (mk (o + 2 + j : ℕ) (d + 1 : ℕ) (tape.pair d x (y + .ofNat j)) loops port).step c p =
        _ := step_increment (hp.increment j hj) (by rwa [Tape.size_pair])
    rw [Tape.read_pair_right hd, Tape.store_pair_right,
      show y + .ofNat j + 1 = y + .ofNat (j + 1) from add_ofNat_add y j 1] at hs
    exact (ih (Nat.le_of_succ_le hj)).trans (.single (by omega) (by omega) hs)

theorem passes_body (hp : p.HasTransfer o k) (hd : d + 1 < tape.size) :
    Passes c p o (o + k + 5) (k + 3) (mk (o + 1 : ℕ) d (tape.pair d x y) loops port)
      (mk (o + k + 4 : ℕ) d (tape.pair d (x - 1) (y + .ofNat k)) loops port) := by
  have hright : (mk (o + 1 : ℕ) d (tape.pair d x y) loops port).step c p = _ :=
    step_moveRight hp.moveRight
  have hleft : (mk (o + 2 + k : ℕ) (d + 1 : ℕ) (tape.pair d x (y + .ofNat k)) loops port).step c p =
      _ := step_moveLeft hp.moveLeft
  have hdown : (mk (o + 3 + k : ℕ) d (tape.pair d x (y + .ofNat k)) loops port).step c p = _ :=
    step_decrement hp.decrement (by rw [Tape.size_pair]; omega)
  rw [show o + 2 + k + 1 = o + 3 + k by omega] at hleft
  rw [Tape.read_pair_left hd, Tape.store_pair_left, show o + 3 + k + 1 = o + k + 4 by omega]
    at hdown
  have hfront := (Passes.single (by omega) (by omega) hright).trans
    (passes_increments hp hd (Nat.le_refl k))
  have hback := hfront.trans (.single (by omega) (by omega) hleft)
  rw [show k + 3 = 1 + k + 1 + 1 by omega]
  exact hback.trans (.single (by omega) (by omega) hdown)

/-- The rounds that are left when the body is entered: each takes one from the first cell. -/
theorem passes_rounds (hp : p.HasTransfer o k) (hd : d + 1 < tape.size)
    (ho : loops.openerOf (o + k + 4 : ℕ) = .ok (o : Int)) {n : ℕ} (hx : x.toNat = n + 1) :
    Passes c p o (o + k + 5) ((n + 1) * (k + 4)) (mk (o + 1 : ℕ) d (tape.pair d x y) loops port)
      (mk (o + k + 5 : ℕ) d (tape.pair d 0 (y + .ofNat ((n + 1) * k))) loops port) := by
  induction n generalizing x y with
  | zero =>
    have hlast : x = 1 := UInt8.toNat_inj.1 hx
    have hs : (mk (o + k + 4 : ℕ) d (tape.pair d 0 (y + .ofNat k)) loops port).step c p = _ :=
      step_closeLoop hp.loop.instructionAt_closer (by rw [Tape.size_pair]; omega) ho
    rw [Tape.read_pair_left hd, if_pos rfl, if_pos rfl] at hs
    have hbody : Passes c p o (o + k + 5) (k + 3) (mk (o + 1 : ℕ) d (tape.pair d 1 y) loops port)
        (mk (o + k + 4 : ℕ) d (tape.pair d 0 (y + .ofNat k)) loops port) := passes_body hp hd
    rw [hlast, Nat.zero_add, Nat.one_mul, Nat.one_mul]
    exact hbody.trans (.single (by omega) (by omega) hs)
  | succ n ih =>
    -- the first cell is not yet zero behind the body, so that the closer leads back
    have hone : (1 : UInt8) ≤ x := by
      rw [UInt8.le_iff_toNat_le, hx]
      exact Nat.le_add_left 1 _
    have hnext : (x - 1).toNat = n + 1 := by
      rw [UInt8.toNat_sub_of_le _ _ hone, hx]
      rfl
    have hne : x - 1 ≠ 0 := fun h => by
      rw [h] at hnext
      cases hnext
    have hs : (mk (o + k + 4 : ℕ) d (tape.pair d (x - 1) (y + .ofNat k)) loops port).step c p =
        _ := step_closeLoop hp.loop.instructionAt_closer (by rw [Tape.size_pair]; omega) ho
    rw [Tape.read_pair_left hd, if_neg hne, if_neg hne] at hs
    have hround := (passes_body hp hd).trans (.single (by omega) (by omega) hs)
    have hrest := hround.trans (ih (y := y + .ofNat k) hnext)
    rw [add_ofNat_add] at hrest
    rw [show (n + 1 + 1) * (k + 4) = k + 3 + 1 + (n + 1) * (k + 4) by
        rw [Nat.succ_mul, Nat.add_comm],
      show (n + 1 + 1) * k = k + (n + 1) * k by rw [Nat.succ_mul, Nat.add_comm]]
    exact hrest

theorem passes_transfer (hp : p.HasTransfer o k) (hm : loops.Matched p) (hd : d + 1 < tape.size) :
    let v := (tape.read d).toNat
    let loops' := if loops.contains o then loops else loops.record o (o + k + 4 : ℕ)
    Passes c p o (o + k + 5) (1 + v * (k + 4)) (mk o d tape loops port)
      (mk (o + k + 5 : ℕ) d (tape.pair d 0 (tape.read (d + 1) + .ofNat (v * k))) loops' port) := by
  intro v loops'
  obtain ⟨hr, ho⟩ := hm.resolve_hasLoop hp.loop
  have hs : (mk o d tape loops port).step c p = _ :=
    step_openLoop hp.loop.instructionAt_opener (by omega) hr
  cases hv : v with
  | zero =>
    have hzero : tape.read d = 0 := UInt8.toNat_inj.1 hv
    have hsame : tape.pair d 0 (tape.read (d + 1)) = tape := by
      rw [← hzero, Tape.pair_read]
    rw [if_pos hzero, if_pos hzero] at hs
    rw [Nat.zero_mul, Nat.zero_mul, add_ofNat_zero, hsame]
    exact .single (by omega) (by omega) hs
  | succ n =>
    have hne : tape.read d ≠ 0 := fun h => by
      rw [show v = (tape.read d).toNat from rfl, h] at hv
      cases hv
    rw [if_neg hne, if_neg hne] at hs
    have hrounds : Passes c p _ _ _ (mk (o + 1 : ℕ) d (tape.pair d _ _) loops' port) _ :=
      passes_rounds (y := tape.read (d + 1)) hp hd ho hv
    rw [Tape.pair_read] at hrounds
    exact (Passes.single (by omega) (by omega) hs).trans hrounds

/-- A transfer loop computes a product, whatever text stands around it: it takes `1 + v * (k + 4)`
steps, none of which fails or leaves the loop before its end, to bring the value `v` of the cell
under the data pointer to zero and to add `k * v` to the next cell. Nothing else changes but the
table, which afterwards has the pair of the loop. -/
theorem transferLoop_multiplies (a b : List Char) (k : ℕ) (c : Config) :
    let p := Program.ofList (a ++ transferLoop k ++ b)
    let behind := a.length + (transferLoop k).length
    (∀ input n, ((Run.start c input).forward c p n).run.machine.loops.Matched p) ∧
    ∀ m : Machine, m.ip = a.length → m.loops.Matched p → 0 ≤ m.dp → m.dp + 1 < m.tape.size →
      let d := m.dp.toNat
      let v := (m.tape.read d).toNat
      let w := (m.tape.read (d + 1)).toNat
      ∃ m', m.Passes c p a.length behind (1 + v * (k + 4)) m' ∧ m'.ip = behind ∧ m'.dp = m.dp ∧
        m'.tape.read d = 0 ∧ (m'.tape.read (d + 1)).toNat = (w + k * v) % 256 ∧
        (∀ j, j ≠ d → j ≠ d + 1 → m'.tape.read j = m.tape.read j) ∧
        m'.tape.size = m.tape.size ∧ m'.port = m.port ∧
        m'.loops = if m.loops.contains a.length then m.loops
          else m.loops.record a.length (behind - 1 : ℕ) := by
  intro p behind
  have hp : p.HasTransfer a.length k := hasTransfer_ofList a b k
  have hbehind : behind = a.length + k + 5 := by
    dsimp only [behind]
    rw [length_transferLoop, Nat.add_assoc]
  refine ⟨fun input n => ?_, ?_⟩
  · exact (Run.tracked_forward (.of_fresh rfl rfl p) c n).sound.matched
  rintro ⟨ip, dp, tape, loops, port⟩ rfl hm h0 hlt d v w
  dsimp only at hm h0 hlt ⊢
  have hd : (d : Int) = dp := Int.toNat_of_nonneg h0
  have hsize : d + 1 < tape.size := by omega
  have hpass : Passes c p _ _ _ (mk a.length d tape loops port) _ := passes_transfer hp hm hsize
  rw [hd, ← hbehind, show a.length + k + 4 = behind - 1 by omega] at hpass
  refine ⟨_, hpass, rfl, rfl, Tape.read_pair_left hsize, ?_, fun j hj hj' =>
    Tape.read_pair_of_ne hj hj', Tape.size_pair, rfl, rfl⟩
  rw [Tape.read_pair_right hsize, UInt8.toNat_add, UInt8.toNat_ofNat', Nat.add_mod_mod,
    Nat.mul_comm]

theorem transferLoop_between_brackets :
    let a := [']', '+']
    let b := ['[']
    let p := Program.ofList (a ++ transferLoop 3 ++ b)
    let m : Machine := { ip := 2, dp := 1, tape := ⟨#[9, 12, 250]⟩ }
    m.ip = a.length ∧ m.loops.Matched p ∧ 0 ≤ m.dp ∧ m.dp + 1 < m.tape.size ∧
      ∃ m', m.Passes {} p 2 10 85 m' ∧ m'.ip = 10 ∧ m'.dp = 1 ∧ m'.tape.read 1 = 0 ∧
        (m'.tape.read 2).toNat = 30 ∧ m'.tape.read 0 = 9 ∧ m'.loops = ⟨[(2, 9)]⟩ := by
  intro a b p m
  have hm : m.loops.Matched p := (LoopTable.sound_empty p).matched
  obtain ⟨m', hpass, hip, hdp, hzero, hvalue, hsame, -, -, hloops⟩ :=
    (transferLoop_multiplies a b 3 {}).2 m rfl hm (by decide) (by decide)
  exact ⟨rfl, hm, by decide, by decide, m', hpass, hip, hdp, hzero, hvalue.trans (by decide),
    hsame 0 (by decide) (by decide), hloops⟩

end Machine

end TapeMachine
