import TapeMachine.Loop.Closing

namespace TapeMachine

/-- The loops whose opener has been reached, as pairs of opener and closer, latest first. -/
structure LoopTable where
  recorded : List (Int × Int) := []
  deriving DecidableEq, Inhabited

namespace LoopTable

def empty : LoopTable := {}

def size (t : LoopTable) : Nat := t.recorded.length

def closer? (t : LoopTable) (opener : Int) : Option Int :=
  (t.recorded.find? fun e => e.1 = opener).map (·.2)

/-- Of several openers recorded with one closer, the latest. -/
def opener? (t : LoopTable) (closer : Int) : Option Int :=
  (t.recorded.find? fun e => e.2 = closer).map (·.1)

def contains (t : LoopTable) (opener : Int) : Bool := (t.closer? opener).isSome

def record (t : LoopTable) (opener closer : Int) : LoopTable := ⟨(opener, closer) :: t.recorded⟩

/-- A loop is looked for in the text once; afterwards its pair stays what it was. -/
def resolve (t : LoopTable) (p : Program) (opener : Int) : Except Fault (Int × LoopTable) :=
  match t.closer? opener with
  | some closer => .ok (closer, t)
  | none =>
    match p.closerOf opener with
    | .ok closer => .ok (closer, t.record opener closer)
    | .error f => .error f

def openerOf (t : LoopTable) (closer : Int) : Except Fault Int :=
  match t.opener? closer with
  | some opener => .ok opener
  | none => .error (.unpairedCloser closer)

/-- Keeps, of entries with one key, the first. -/
def firstOfKey : List (Int × Int) → List (Int × Int)
  | [] => []
  | e :: rest => e :: (firstOfKey rest).filter fun d => d.1 ≠ e.1

private def ascending (entries : List (Int × Int)) : List (Int × Int) :=
  entries.mergeSort fun a b => a.1 ≤ b.1

/-- The pairs of opener and closer by ascending opener. -/
def closers (t : LoopTable) : List (Int × Int) := ascending (firstOfKey t.recorded)

/-- The pairs of closer and opener by ascending closer. -/
def openers (t : LoopTable) : List (Int × Int) :=
  ascending (firstOfKey (t.recorded.map fun e => (e.2, e.1)))

theorem mem_firstOfKey {entries : List (Int × Int)} {k v : Int} :
    (k, v) ∈ firstOfKey entries ↔ (entries.find? fun e => e.1 = k).map (·.2) = some v := by
  induction entries with
  | nil => simp [firstOfKey]
  | cons e rest ih =>
    obtain ⟨k', v'⟩ := e
    by_cases h : k' = k
    · subst h
      simp [firstOfKey, eq_comm]
    · simp [firstOfKey, h, Ne.symm h, ih]

theorem nodup_firstOfKey (entries : List (Int × Int)) : (firstOfKey entries).Nodup := by
  induction entries with
  | nil => exact .nil
  | cons e rest ih => exact List.nodup_cons.2 ⟨by simp, List.Pairwise.filter _ ih⟩

theorem mem_closers {t : LoopTable} {o c : Int} : (o, c) ∈ t.closers ↔ t.closer? o = some c :=
  (List.mergeSort_perm ..).mem_iff.trans mem_firstOfKey

theorem mem_openers {t : LoopTable} {o c : Int} : (c, o) ∈ t.openers ↔ t.opener? c = some o := by
  rw [openers, ascending, (List.mergeSort_perm ..).mem_iff, mem_firstOfKey, List.find?_map,
    Option.map_map]
  rfl

theorem nodup_closers (t : LoopTable) : t.closers.Nodup :=
  (List.mergeSort_perm ..).nodup_iff.2 (nodup_firstOfKey _)

theorem nodup_openers (t : LoopTable) : t.openers.Nodup :=
  (List.mergeSort_perm ..).nodup_iff.2 (nodup_firstOfKey _)

theorem closer?_record (t : LoopTable) (opener closer o : Int) :
    (t.record opener closer).closer? o = if opener = o then some closer else t.closer? o := by
  by_cases h : opener = o <;> simp [closer?, record, h]

theorem opener?_record (t : LoopTable) (opener closer c : Int) :
    (t.record opener closer).opener? c = if closer = c then some opener else t.opener? c := by
  by_cases h : closer = c <;> simp [opener?, record, h]

end LoopTable

end TapeMachine
