import TapeMachine.Proofs.Lookups
import TapeMachine.Proofs.Recording

namespace TapeMachine

namespace LoopTable

/-- What a table is asked for: the closer of an opener in some text, or the opener of a closer. -/
inductive Query
  | closer (p : Program) (opener : Int)
  | opener (closer : Int)

def ask (t : LoopTable) : Query → Except Fault Int × LoopTable
  | .closer p opener =>
    match t.resolve p opener with
    | .ok (closer, t') => (.ok closer, t')
    | .error f => (.error f, t)
  | .opener closer => (t.openerOf closer, t)

def askAll (t : LoopTable) : List Query → LoopTable
  | [] => t
  | q :: rest => (t.ask q).2.askAll rest

/-- The pair that a query enters in the table: an opener not known before, with the closer found. -/
def entryOf (t : LoopTable) (q : Query) : Option (Int × Int) :=
  match q, (t.ask q).1 with
  | .closer _ opener, .ok closer => if t.contains opener then none else some (opener, closer)
  | _, _ => none

/-- The entries of a map, each once. -/
structure Lists (entries : List (Int × Int)) (map : Int → Option Int) : Prop where
  nodup : entries.Nodup
  mem_iff : ∀ k v, (k, v) ∈ entries ↔ map k = some v

def entered (t : LoopTable) : List Query → List (Int × Int)
  | [] => []
  | q :: rest => (t.entryOf q).toList ++ (t.ask q).2.entered rest

end LoopTable

namespace Lookups

def empty : Lookups := ⟨fun _ => none, fun _ => none⟩

/-- A query to two maps that are written one after the other. What is written before a fault stays
written. -/
def ask : LoopTable.Query → ExceptT Fault (StateM Lookups) Int
  | .closer p opener => do
    match (← get).closer? opener with
    | some closer => return closer
    | none =>
      let closer ← p.closerOf opener
      modify fun t => { t with closer? := Function.update t.closer? opener (some closer) }
      modify fun t => { t with opener? := Function.update t.opener? closer (some opener) }
      return closer
  | .opener closer => do
    match (← get).opener? closer with
    | some opener => return opener
    | none => throw (.unpairedCloser closer)

def askAll (t : Lookups) : List LoopTable.Query → Lookups
  | [] => t
  | q :: rest => ((ask q).run.run t).2.askAll rest

theorem run_ask_opener (t : Lookups) (c : Int) :
    (ask (.opener c)).run.run t = (t.openerOf c, t) := by
  change ((match t.opener? c with
    | some opener => pure opener
    | none => throw (.unpairedCloser c) : ExceptT Fault (StateM Lookups) Int)).run.run t = _
  unfold openerOf
  cases t.opener? c <;> rfl

theorem run_ask_closer (t : Lookups) (p : Program) (o : Int) :
    (ask (.closer p o)).run.run t = match t.resolve p o with
      | .ok (c, t') => (.ok c, t')
      | .error f => (.error f, t) := by
  change ((match t.closer? o with
    | some closer => pure closer
    | none => liftM (p.closerOf o) >>= _ : ExceptT Fault (StateM Lookups) Int)).run.run t = _
  unfold resolve
  cases t.closer? o with
  | some c => rfl
  | none =>
    dsimp only
    cases p.closerOf o <;> rfl

theorem eq_of_run_ask_error {t t' : Lookups} {q : LoopTable.Query} {f : Fault}
    (h : (ask q).run.run t = (.error f, t')) : t' = t := by
  cases q with
  | opener c =>
    rw [run_ask_opener] at h
    exact (congrArg Prod.snd h).symm
  | closer p o =>
    rw [run_ask_closer] at h
    cases hr : t.resolve p o with
    | ok found =>
      rw [hr] at h
      cases congrArg Prod.fst h
    | error g =>
      rw [hr] at h
      exact (congrArg Prod.snd h).symm

end Lookups

namespace LoopTable

variable {t : LoopTable} {p : Program} {qs : List Query} {o c : Int} {entries : List (Int × Int)}

/-- A query changes nothing, or enters one pair. -/
theorem ask_cases (t : LoopTable) (q : Query) :
    (t.entryOf q = none ∧ (t.ask q).2 = t) ∨
      ∃ p o c, q = .closer p o ∧ t.closer? o = none ∧ p.closerOf o = .ok c ∧
        t.ask q = (.ok c, t.record o c) ∧ t.entryOf q = some (o, c) := by
  cases q with
  | opener c => exact .inl ⟨by simp [entryOf], rfl⟩
  | closer p o =>
    cases hc : t.closer? o with
    | some c => exact .inl (by simp [entryOf, ask, resolve, hc, contains])
    | none =>
      cases hp : p.closerOf o with
      | error f => exact .inl (by simp [entryOf, ask, resolve, hc, hp])
      | ok c =>
        refine .inr ⟨p, o, c, rfl, hc, hp, ?_, ?_⟩ <;>
          simp [entryOf, ask, resolve, hc, hp, contains]

/-- Two maps answer as the table does, and hold what it holds. -/
theorem ask_lookups (t : LoopTable) (q : Query) :
    (Lookups.ask q).run.run t.lookups = ((t.ask q).1, (t.ask q).2.lookups) := by
  cases q with
  | opener c => exact Lookups.run_ask_opener t.lookups c
  | closer p o =>
    rw [Lookups.run_ask_closer, lookups_resolve, ask]
    cases t.resolve p o <;> rfl

theorem askAll_lookups (t : LoopTable) (qs : List Query) :
    t.lookups.askAll qs = (t.askAll qs).lookups := by
  induction qs generalizing t with
  | nil => rfl
  | cons q rest ih => rw [Lookups.askAll, ask_lookups, ih, askAll]

theorem askAll_induction {I : LoopTable → Prop} (h : I t)
    (step : ∀ t, ∀ q ∈ qs, I t → I (t.ask q).2) : I (t.askAll qs) := by
  induction qs generalizing t with
  | nil => exact h
  | cons q rest ih =>
    exact ih (step t q List.mem_cons_self h) fun t q hq => step t q (List.mem_cons_of_mem _ hq)

theorem recorded_askAll (t : LoopTable) (qs : List Query) :
    (t.askAll qs).recorded = (t.entered qs).reverse ++ t.recorded := by
  induction qs generalizing t with
  | nil => rfl
  | cons q rest ih =>
    rw [askAll, entered, ih, List.reverse_append, List.append_assoc]
    congr 1
    obtain ⟨he, ht⟩ | ⟨p, o, c, -, -, -, ht, he⟩ := ask_cases t q
    · rw [he, ht]
      rfl
    · rw [he, ht]
      rfl

theorem nodup_keys_askAll (h : t.keys.Nodup) : (t.askAll qs).keys.Nodup := by
  refine askAll_induction (I := fun t => t.keys.Nodup) h fun t q _ ht => ?_
  obtain ⟨-, he⟩ | ⟨p, o, c, -, ho, -, he, -⟩ := ask_cases t q
  · rwa [he]
  · have hnew : o ∉ t.keys := by
      rw [← contains_iff_mem_keys, contains, ho]
      exact Bool.false_ne_true
    rw [he]
    exact List.nodup_cons.2 ⟨hnew, ht⟩

theorem closer?_askAll (h : t.closer? o = some c) : (t.askAll qs).closer? o = some c := by
  refine askAll_induction (I := fun t => t.closer? o = some c) h fun t q _ ht => ?_
  obtain ⟨-, he⟩ | ⟨p, o', d, -, ho', -, he, -⟩ := ask_cases t q
  · rwa [he]
  · have hne : o' ≠ o := by
      rintro rfl
      rw [ho'] at ht
      cases ht
    rw [he, closer?_record, if_neg hne, ht]

theorem ask_closer_of_known (h : t.closer? o = some c) (p : Program) :
    t.ask (.closer p o) = (.ok c, t) := by
  simp only [ask, resolve, h]

theorem closer?_of_ask (h : (t.ask (.closer p o)).1 = .ok c) :
    (t.ask (.closer p o)).2.closer? o = some c := by
  obtain ⟨he, ht⟩ | ⟨p', o', d, hq, -, -, he, -⟩ := ask_cases t (.closer p o)
  · cases hc : t.closer? o with
    | some d =>
      rw [ask_closer_of_known hc] at h ⊢
      rw [hc, Except.ok.inj h]
    | none => simp [entryOf, h, contains, hc] at he
  · cases hq
    rw [he] at h ⊢
    rw [closer?_record, if_pos rfl, Except.ok.inj h]

theorem closer?_eq_some_iff_of_nodup (h : t.keys.Nodup) :
    t.closer? o = some c ↔ (o, c) ∈ t.recorded := by
  refine ⟨mem_of_closer?, fun hm => ?_⟩
  obtain ⟨d, hd⟩ := closer?_isSome_of_mem hm
  have he := List.inj_on_of_nodup_map h hm (mem_of_closer? hd) rfl
  rw [hd, (Prod.mk.inj he).2]

theorem closer?_of_opener? (h : t.keys.Nodup) (ho : t.opener? c = some o) :
    t.closer? o = some c :=
  (closer?_eq_some_iff_of_nodup h).2 (mem_of_opener? ho)

theorem exists_opener?_of_closer? (h : t.closer? o = some c) : ∃ o', t.opener? c = some o' :=
  opener?_isSome_of_mem (mem_of_closer? h)

theorem lists_closers (t : LoopTable) : Lists t.closers t.closer? :=
  ⟨t.nodup_closers, fun _ _ => mem_closers⟩

theorem lists_openers (t : LoopTable) : Lists t.openers t.opener? :=
  ⟨t.nodup_openers, fun _ _ => mem_openers⟩

theorem length_openers_le (h : t.keys.Nodup) : t.openers.length ≤ t.closers.length := by
  have hsub : t.openers.map Prod.swap ⊆ t.closers := by
    intro e he
    obtain ⟨⟨c, o⟩, hm, rfl⟩ := List.mem_map.1 he
    exact mem_closers.2 (closer?_of_opener? h (mem_openers.1 hm))
  have hnodup : (t.openers.map Prod.swap).Nodup := t.nodup_openers.map Prod.swap_injective
  simpa only [List.length_map] using (List.subperm_of_subset hnodup hsub).length_le

/-- The two maps are inverse to each other unless openers share a closer. -/
theorem inverse_iff (h : t.keys.Nodup) :
    (∀ o c, t.closer? o = some c ↔ t.opener? c = some o) ↔
      ∀ o o' c, t.closer? o = some c → t.closer? o' = some c → o = o' := by
  constructor
  · intro hinv o o' c ho ho'
    exact Option.some.inj (((hinv o c).1 ho).symm.trans ((hinv o' c).1 ho'))
  · intro hshare o c
    refine ⟨fun ho => ?_, closer?_of_opener? h⟩
    obtain ⟨o', ho'⟩ := exists_opener?_of_closer? ho
    rw [ho', hshare o o' c ho (closer?_of_opener? h ho')]

theorem sound_askAll (h : t.Sound p) (hqs : ∀ p' o, Query.closer p' o ∈ qs →
    p' = p ∧ 0 ≤ o ∧ p.symbolAt o = .ok '[') : (t.askAll qs).Sound p := by
  refine askAll_induction (I := fun t => t.Sound p) h fun t q hq ht => ?_
  obtain ⟨-, he⟩ | ⟨p', o, c, rfl, -, hc, he, -⟩ := ask_cases t q
  · rwa [he]
  · -- the pair that is entered is a loop of this text
    obtain ⟨rfl, ho, hs⟩ := hqs p' o hq
    have hi : p'.instructionAt o = .ok .openLoop := Program.instructionAt_of_symbolAt hs
    rw [he]
    intro a b hab
    obtain heq | hab := List.mem_cons.1 hab
    · cases heq
      exact (Program.closerOf_eq_ok_iff hi ho).1 hc
    · exact ht a b hab

theorem opener?_eq_getLast? (h : t.recorded = entries.reverse) :
    t.opener? c = ((entries.filter fun e => e.2 = c).getLast?).map Prod.fst := by
  rw [opener?, h, ← List.head?_filter, List.filter_reverse, List.head?_reverse]

/-- However a table is used, in whatever texts and with whatever failures, each closer leads back to
the opener recorded last with it, and that opener leads to the closer. What has been found for an
opener is found ever after, and a failed query writes nothing. The way back is the inverse of the
way there unless two openers share a closer, which those of one text never do. -/
theorem table_of_queries (qs : List Query) :
    let t := empty.askAll qs
    Lookups.empty.askAll qs = t.lookups ∧
    (∀ q, (Lookups.ask q).run.run t.lookups = ((t.ask q).1, (t.ask q).2.lookups)) ∧
    (∀ o c, t.opener? c = some o → t.closer? o = some c) ∧
    (∀ o c, t.closer? o = some c → ∃ o', t.opener? c = some o') ∧
    (∀ o c, t.closer? o = some c ↔ (o, c) ∈ empty.entered qs) ∧
    (∀ c, t.opener? c =
      (((empty.entered qs).filter fun e => e.2 = c).getLast?).map Prod.fst) ∧
    (∀ p o c, (t.ask (.closer p o)).1 = .ok c → ∀ more p',
      (((t.ask (.closer p o)).2.askAll more).ask (.closer p' o)).1 = .ok c) ∧
    (∀ o c, t.closer? o = some c → ∀ more, (t.askAll more).closer? o = some c) ∧
    (∀ q f t', (Lookups.ask q).run.run t.lookups = (.error f, t') → t' = t.lookups) ∧
    (Lists t.closers t.closer? ∧ Lists t.openers t.opener? ∧
      t.openers.length ≤ t.closers.length) ∧
    ((∀ o c, t.closer? o = some c ↔ t.opener? c = some o) ↔
      ∀ o o' c, t.closer? o = some c → t.closer? o' = some c → o = o') ∧
    ∀ p, (∀ p' o, Query.closer p' o ∈ qs → p' = p ∧ 0 ≤ o ∧ p.symbolAt o = .ok '[') →
      ∀ o o' c, t.closer? o = some c → t.closer? o' = some c → o = o' := by
  intro t
  have hkeys : t.keys.Nodup := nodup_keys_askAll .nil
  have hrec : t.recorded = (empty.entered qs).reverse := by
    rw [recorded_askAll]
    exact List.append_nil _
  refine ⟨askAll_lookups empty qs, ask_lookups t, fun o c => closer?_of_opener? hkeys,
    fun o c => exists_opener?_of_closer?, fun o c => ?_, fun c => opener?_eq_getLast? hrec,
    fun p o c h more p' => ?_, fun o c h more => closer?_askAll h,
    fun q f t' => Lookups.eq_of_run_ask_error,
    ⟨t.lists_closers, t.lists_openers, length_openers_le hkeys⟩, inverse_iff hkeys,
    fun p hqs o o' c ho ho' => ?_⟩
  · rw [closer?_eq_some_iff_of_nodup hkeys, hrec, List.mem_reverse]
  · rw [ask_closer_of_known (closer?_askAll (closer?_of_ask h))]
  · have ht : t.Sound p := sound_askAll (sound_empty p) hqs
    exact (ht o c (mem_of_closer? ho)).opener_unique (ht o' c (mem_of_closer? ho'))

/-- In a second text an opener before the start takes over the closer of the first. -/
theorem table_of_queries_in_two_texts :
    let p := Program.ofList ['[', ']']
    let p' := Program.ofList ['+', ']']
    let qs := [.closer p 0, .closer p' (-1), .closer p' 3, .opener 1, .opener 5]
    let t := empty.askAll qs
    (t.opener? 1 = some (-1) ∧ t.closer? (-1) = some 1) ∧
    (t.closer? 0 = some 1 ∧ (0, 1) ∈ empty.entered qs ∧
      (((t.ask (.closer p' 0)).2.askAll [.closer p' 7]).ask (.closer p 0)).1 = .ok 1 ∧
      (t.askAll [.opener 9]).closer? 0 = some 1) ∧
    t.openers.length ≤ t.closers.length ∧
    (¬ ∀ o c, t.closer? o = some c ↔ t.opener? c = some o) ∧
    ∀ o c, (empty.askAll [.closer p 0, .opener 1]).closer? o = some c ↔
      (empty.askAll [.closer p 0, .opener 1]).opener? c = some o := by
  intro p p' qs t
  obtain ⟨-, -, hback, -, hentered, -, hagain, hkept, -, ⟨-, -, hlength⟩, hinverse, -⟩ :=
    table_of_queries qs
  have hlast : t.opener? 1 = some (-1) := by decide
  have hfirst : t.closer? 0 = some 1 := by decide
  refine ⟨⟨hlast, hback (-1) 1 hlast⟩, ⟨hfirst, (hentered 0 1).1 hfirst,
    hagain p' 0 1 (by decide) [.closer p' 7] p, hkept 0 1 hfirst [.opener 9]⟩, hlength, ?_, ?_⟩
  · intro h
    exact absurd (hinverse.1 h 0 (-1) 1 hfirst (hback (-1) 1 hlast)) (by decide)
  · obtain ⟨-, -, -, -, -, -, -, -, -, -, hinverse, hone⟩ :=
      table_of_queries [.closer p 0, .opener 1]
    refine hinverse.2 (hone p fun r o hr => ?_)
    obtain ⟨rfl, rfl⟩ : r = p ∧ o = 0 := by simpa using hr
    exact ⟨rfl, Int.le_refl 0, by decide⟩

end LoopTable

end TapeMachine
