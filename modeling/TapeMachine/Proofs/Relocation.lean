import TapeMachine.Proofs.Lockstep
import TapeMachine.Proofs.Tracking
import Mathlib.Data.List.Find

namespace TapeMachine

def Fault.relocate (g : Int → Int) : Fault → Fault
  | unmatchedOpener i => unmatchedOpener (g i)
  | unpairedCloser i => unpairedCloser (g i)
  | foreignSymbol s i => foreignSymbol s (g i)
  | inputExhausted i => inputExhausted (g i)
  | cellOutOfRange pointer size i => cellOutOfRange pointer size (g i)
  | f => f

def LoopTable.relocate (t : LoopTable) (g : Int → Int) : LoopTable :=
  ⟨t.recorded.map fun l => (g l.1, g l.2)⟩

/-- Reads every position as another; all else stays as it is. -/
def relocation (g : Int → Int) : Reading where
  machine m := { m with ip := g m.ip, loops := m.loops.relocate g }
  effect e := { e with jumpTarget := e.jumpTarget.map g }
  fault := Fault.relocate g

variable {g : Int → Int}

namespace LoopTable

variable {t t' : LoopTable} {p q : Program} {o c : Int}

theorem find?_relocate (key : Int × Int → Int) (hkey : ∀ l, key (g l.1, g l.2) = g (key l)) {k : Int}
    (hg : ∀ l ∈ t.recorded, g (key l) = g k ↔ key l = k) :
    (t.relocate g).recorded.find? (fun l => key l = g k) =
      (t.recorded.find? fun l => key l = k).map fun l => (g l.1, g l.2) := by
  rw [relocate, List.find?_map]
  congr 1
  apply List.find?_congr
  intro l hl
  simp only [Function.comp_apply, hkey, hg l hl]

theorem closer?_relocate (hg : ∀ l ∈ t.recorded, g l.1 = g o ↔ l.1 = o) :
    (t.relocate g).closer? (g o) = (t.closer? o).map g := by
  simp only [closer?, find?_relocate Prod.fst (fun _ => rfl) hg, Option.map_map]
  rfl

theorem opener?_relocate (hg : ∀ l ∈ t.recorded, g l.2 = g c ↔ l.2 = c) :
    (t.relocate g).opener? (g c) = (t.opener? c).map g := by
  simp only [opener?, find?_relocate Prod.snd (fun _ => rfl) hg, Option.map_map]
  rfl

theorem resolve_relocate (hg : ∀ l ∈ t.recorded, g l.1 = g o ↔ l.1 = o)
    (hq : q.closerOf (g o) = match p.closerOf o with
      | .ok c => .ok (g c)
      | .error f => .error (f.relocate g)) :
    (t.relocate g).resolve q (g o) = match t.resolve p o with
      | .ok (c, t') => .ok (g c, t'.relocate g)
      | .error f => .error (f.relocate g) := by
  unfold resolve
  rw [closer?_relocate hg, hq]
  cases t.closer? o with
  | some c => rfl
  | none => cases p.closerOf o <;> rfl

theorem openerOf_relocate (hg : ∀ l ∈ t.recorded, g l.2 = g c ↔ l.2 = c) :
    (t.relocate g).openerOf (g c) = match t.openerOf c with
      | .ok o => .ok (g o)
      | .error f => .error (f.relocate g) := by
  unfold openerOf
  rw [opener?_relocate hg]
  cases t.opener? c <;> rfl

end LoopTable

namespace Machine

variable {c : Config} {p q : Program} {m : Machine}

theorem cell_relocate (g : Int → Int) (m : Machine) :
    ((relocation g).machine m).cell c = match m.cell c with
      | .ok i => .ok i
      | .error f => .error (f.relocate g) := by
  unfold cell
  rw [show ((relocation g).machine m).tape = m.tape from rfl,
    show ((relocation g).machine m).dp = m.dp from rfl]
  cases c.bounds.cell m.tape.size m.dp with
  | ok i => rfl
  | error f => cases f <;> rfl

theorem atCell_relocate {act act' : ℕ → Machine → Step}
    (h : ∀ i tape, act' i ((relocation g).machine { m with tape }) =
      (relocation g).step (act i { m with tape })) :
    ((relocation g).machine m).atCell c act' = (relocation g).step (m.atCell c act) := by
  refine Reading.atCell_eq rfl (fun i hi => ⟨?_, h i (m.tape.cover i)⟩) fun f hf => ?_
  · rw [cell_relocate, hi]
  · rw [cell_relocate, hf]
    rfl

/-- Two programs with the same instruction at a position and at its image do the same there, if
what comes behind the two is found at the image of what comes behind the one. -/
theorem perform_relocate {k : Instruction} (hip : g (m.ip + 1) = g m.ip + 1)
    (hopen : k = .openLoop →
      (m.loops.relocate g).resolve q (g m.ip) = (match m.loops.resolve p m.ip with
        | .ok (d, t) => .ok (g d, t.relocate g)
        | .error f => .error (f.relocate g)) ∧
      ∀ d t, m.loops.resolve p m.ip = .ok (d, t) → g (d + 1) = g d + 1)
    (hclose : k = .closeLoop →
      (m.loops.relocate g).openerOf (g m.ip) = (match m.loops.openerOf m.ip with
        | .ok o => .ok (g o)
        | .error f => .error (f.relocate g)) ∧
      ∀ o, m.loops.openerOf m.ip = .ok o → g (o + 1) = g o + 1) :
    ((relocation g).machine m).perform c q k = (relocation g).step (m.perform c p k) := by
  have advance (e : Effect) (he : e.jumpTarget = none) (n : Machine) (hn : n.ip = m.ip) :
      Step.done e ((relocation g).machine n).advance = (relocation g).step (.done e n.advance) := by
    obtain ⟨k, j, w, b⟩ := e
    obtain rfl : j = none := he
    simp only [Reading.step, relocation, Machine.advance, hn, hip]
    rfl
  have jump (d : Int) (hd : g (d + 1) = g d + 1) (n : Machine) :
      ((relocation g).machine n).jump (g d) = (relocation g).machine (n.jump d) := by
    simp only [relocation, Machine.jump, hd]
  cases k with
  | moveRight => exact advance _ rfl { m with dp := m.dp + 1 } rfl
  | moveLeft => exact advance _ rfl { m with dp := m.dp - 1 } rfl
  | increment | decrement =>
    simp only [perform]
    refine atCell_relocate fun i tape => ?_
    exact advance _ rfl (store { m with tape } i _) rfl
  | write =>
    simp only [perform]
    refine atCell_relocate fun i tape => ?_
    exact advance _ rfl { m with tape, port := m.port.put (tape.read i) } rfl
  | read =>
    simp only [perform]
    refine atCell_relocate fun i tape => ?_
    rw [show ((relocation g).machine { m with tape }).port = m.port from rfl]
    dsimp only
    cases m.port.take? with
    | some t => exact advance _ rfl (store { m with tape, port := t.2 } i t.1) rfl
    | none =>
      cases c.eof with
      | error => rfl
      | zero => exact advance _ rfl (store { m with tape } i 0) rfl
      | unchanged => exact advance _ rfl { m with tape } rfl
  | openLoop =>
    obtain ⟨hresolve, hnext⟩ := hopen rfl
    simp only [perform]
    rw [show ((relocation g).machine m).loops.resolve q ((relocation g).machine m).ip = _
      from hresolve]
    cases hr : m.loops.resolve p m.ip with
    | error f => rfl
    | ok l =>
      obtain ⟨closer, loops⟩ := l
      refine atCell_relocate (m := { m with loops }) fun i tape => ?_
      rw [show ((relocation g).machine { m with loops, tape }).tape.read i = tape.read i from rfl,
        jump closer (hnext closer loops hr)]
      dsimp only
      split
      · rfl
      · exact advance _ rfl { m with loops, tape } rfl
  | closeLoop =>
    obtain ⟨hopener, hnext⟩ := hclose rfl
    simp only [perform]
    refine atCell_relocate fun i tape => ?_
    rw [show ((relocation g).machine { m with tape }).loops.openerOf
      ((relocation g).machine { m with tape }).ip = _ from hopener,
      show ((relocation g).machine { m with tape }).tape.read i = tape.read i from rfl]
    dsimp only
    split
    · exact advance _ rfl { m with tape } rfl
    · cases ho : m.loops.openerOf m.ip with
      | error f => rfl
      | ok opener => exact congrArg (Step.done _) (jump opener (hnext opener ho) { m with tape })

end Machine

end TapeMachine
