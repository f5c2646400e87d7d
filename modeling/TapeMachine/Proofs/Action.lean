import TapeMachine.Proofs.Movement
import TapeMachine.Proofs.Padding

namespace TapeMachine

theorem Tape.store_read (t : Tape) (i : ℕ) : t.store i (t.read i) = t := by
  apply eq_of_read (size_store ..)
  intro j _
  rw [read_store]
  split
  · rename_i h
    rw [h.1]
  · rfl

namespace Effect

def pointerMove (e : Effect) : Int :=
  match e.instruction with
  | .moveRight => 1
  | .moveLeft => -1
  | _ => 0

def cellAfter (c : Config) (e : Effect) (v : UInt8) : UInt8 :=
  match e.instruction with
  | .increment => v + 1
  | .decrement => v - 1
  | .read =>
    match e.read with
    | some b => b
    | none => if c.eof = .zero then 0 else v
  | _ => v

/-- What an effect makes of the tape. Only moves of the data pointer address no cell. -/
def tapeAfter (c : Config) (e : Effect) (dp : Int) (t : Tape) : Tape :=
  if e.pointerMove = 0 then
    match c.bounds.cell t.size dp with
    | .ok i => (t.cover i).store i (e.cellAfter c (t.read i))
    | .error _ => t
  else t

end Effect

namespace Machine

variable {c : Config} {p : Program} {m m' : Machine} {e : Effect}

/-- What an executed instruction does to the data pointer, the tape and the port: all of it can be
read off its effect. -/
structure Acts (c : Config) (m : Machine) (e : Effect) (m' : Machine) : Prop where
  dp : m'.dp = m.dp + e.pointerMove
  tape : m'.tape = e.tapeAfter c m.dp m.tape
  value : ∀ b, e.written = some b → m.value? c = some b
  written : m'.port.written.toList = m.port.written.toList ++ e.written.toList
  unread : m.port.unread = e.read.toList ++ m'.port.unread
  consumed : m'.port.consumed = m.port.consumed + e.read.toList.length
  starved : e.instruction = .read → e.read = none → m.port.unread = [] ∧ c.eof ≠ .error

theorem cell_eq_ok {i : ℕ} : m.cell c = .ok i ↔ c.bounds.cell m.tape.size m.dp = .ok i := by
  unfold cell
  cases c.bounds.cell m.tape.size m.dp with
  | ok j => simp
  | error f => cases f <;> simp

theorem tapeAfter_of_cell {i : ℕ} (h : m.cell c = .ok i) (he : e.pointerMove = 0) :
    e.tapeAfter c m.dp m.tape = (m.tape.cover i).store i (e.cellAfter c (m.tape.read i)) := by
  rw [Effect.tapeAfter, if_pos he, cell_eq_ok.1 h]

theorem tapeAfter_of_unchanged {i : ℕ} (h : m.cell c = .ok i) (he : e.pointerMove = 0)
    (hv : e.cellAfter c (m.tape.read i) = m.tape.read i) :
    e.tapeAfter c m.dp m.tape = m.tape.cover i := by
  rw [tapeAfter_of_cell h he, hv, ← m.tape.read_cover i i, Tape.store_read]

theorem Acts.of_silent (hd : m'.dp = m.dp + e.pointerMove)
    (ht : m'.tape = e.tapeAfter c m.dp m.tape) (hp : m'.port = m.port) (hw : e.written = none)
    (hr : e.read = none) (hi : e.instruction ≠ .read) : m.Acts c e m' where
  dp := hd
  tape := ht
  value b hb := by simp [hw] at hb
  written := by simp [hp, hw]
  unread := by simp [hp, hr]
  consumed := by simp [hp, hr]
  starved h := absurd h hi

theorem Acts.of_read (hd : m'.dp = m.dp + e.pointerMove)
    (ht : m'.tape = e.tapeAfter c m.dp m.tape) (hp : m'.port.written = m.port.written)
    (hw : e.written = none) (hu : m.port.unread = e.read.toList ++ m'.port.unread)
    (hc : m'.port.consumed = m.port.consumed + e.read.toList.length)
    (hs : e.read = none → m.port.unread = [] ∧ c.eof ≠ .error) : m.Acts c e m' where
  dp := hd
  tape := ht
  value b hb := by simp [hw] at hb
  written := by simp [hp, hw]
  unread := hu
  consumed := hc
  starved _ := hs

theorem Acts.of_bracket {i : ℕ} (hc : m.cell c = .ok i)
    (hk : e.instruction = .openLoop ∨ e.instruction = .closeLoop) (hw : e.written = none)
    (hr : e.read = none) (hd : m'.dp = m.dp) (ht : m'.tape = m.tape.cover i)
    (hp : m'.port = m.port) : m.Acts c e m' := by
  have hmove : e.pointerMove = 0 := by
    unfold Effect.pointerMove
    obtain hk | hk := hk <;> rw [hk]
  have hvalue : e.cellAfter c (m.tape.read i) = m.tape.read i := by
    unfold Effect.cellAfter
    obtain hk | hk := hk <;> rw [hk]
  refine .of_silent ?_ ?_ hp hw hr ?_
  · rw [hd, hmove, Int.add_zero]
  · rw [ht, tapeAfter_of_unchanged hc hmove hvalue]
  · obtain hk | hk := hk <;> rw [hk] <;> decide

theorem acts_of_step (hs : m.step c p = .done e m') : m.Acts c e m' := by
  obtain ⟨k, -, h⟩ := exists_perform_of_step_done hs
  cases k with
  | moveRight | moveLeft =>
    cases h
    exact .of_silent rfl rfl rfl rfl rfl (by decide)
  | increment | decrement =>
    simp only [perform, atCell_eq_done, Tape.read_cover] at h
    obtain ⟨i, hc, h⟩ := h
    cases h
    exact .of_silent (Int.add_zero _).symm (Eq.symm (tapeAfter_of_cell hc rfl)) rfl rfl rfl
      (by decide)
  | write =>
    simp only [perform, atCell_eq_done, Tape.read_cover] at h
    obtain ⟨i, hc, h⟩ := h
    cases h
    refine ⟨(Int.add_zero _).symm, ?_, ?_, ?_, rfl, rfl, by simp⟩
    · exact Eq.symm (tapeAfter_of_unchanged hc rfl rfl)
    · intro b hb
      rw [value?_of_cell hc, ← hb]
    · exact Port.toList_written_put m.port _
  | read =>
    simp only [perform, atCell_eq_done] at h
    obtain ⟨i, hc, h⟩ := h
    unfold Port.take? at h
    cases hu : m.port.unread with
    | cons b rest =>
      simp only [hu] at h
      cases h
      exact .of_read (Int.add_zero _).symm (Eq.symm (tapeAfter_of_cell hc rfl)) rfl rfl hu rfl
        (by simp)
    | nil =>
      simp only [hu] at h
      split at h <;> rename_i he <;> cases h
      · refine .of_read (Int.add_zero _).symm ?_ rfl rfl rfl rfl fun _ => ⟨hu, by simp [he]⟩
        refine Eq.trans ?_ (Eq.symm (tapeAfter_of_cell hc rfl))
        simp [Effect.cellAfter, he, advance, store]
      · refine .of_read (Int.add_zero _).symm ?_ rfl rfl rfl rfl fun _ => ⟨hu, by simp [he]⟩
        exact Eq.symm (tapeAfter_of_unchanged hc rfl (by simp [Effect.cellAfter, he]))
  | openLoop =>
    simp only [perform] at h
    split at h
    · cases h
    · obtain ⟨i, hc, h⟩ := atCell_eq_done.1 h
      dsimp only at h
      split at h <;> cases h <;> exact .of_bracket hc (.inl rfl) rfl rfl rfl rfl rfl
  | closeLoop =>
    simp only [perform, atCell_eq_done] at h
    obtain ⟨i, hc, h⟩ := h
    split at h
    · cases h
      exact .of_bracket hc (.inr rfl) rfl rfl rfl rfl rfl
    · split at h <;> cases h
      exact .of_bracket hc (.inr rfl) rfl rfl rfl rfl rfl

end Machine

end TapeMachine
