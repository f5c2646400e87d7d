import TapeMachine.Proofs.Command

namespace TapeMachine

def keptBytes (content : List UInt8) : List UInt8 := content.filter fun b => b ≠ 13 ∧ b ≠ 10

theorem ofNat_byte_eq_iff {b : UInt8} {c : Char} {d : UInt8} (h : c.toNat = d.toNat) :
    Char.ofNat b.toNat = c ↔ b = d := by
  rw [← Char.toNat_inj, Text.Latin1.toNat_ofNat_byte, h, UInt8.toNat_inj]

theorem isLineEnd_ofNat_byte (b : UInt8) :
    (!isLineEnd (Char.ofNat b.toNat)) = decide (b ≠ 13 ∧ b ≠ 10) := by
  have hlf : Char.ofNat b.toNat = '\n' ↔ b = 10 := ofNat_byte_eq_iff rfl
  have hcr : Char.ofNat b.toNat = '\r' ↔ b = 13 := ofNat_byte_eq_iff rfl
  simp [isLineEnd, hlf, hcr]

theorem joinLines_eq_decode (content : List UInt8) :
    joinLines content = Text.Latin1.decode (keptBytes content) := by
  rw [joinLines_eq_filter, Text.Latin1.decode, List.filter_map, keptBytes, Text.Latin1.decode]
  congr 2
  funext b
  exact isLineEnd_ofNat_byte b

theorem countLines_of_not_mem {text : List Char} (h : '\n' ∉ text) :
    countLines text = if text = [] then 0 else 1 := by
  rw [countLines, List.count_eq_zero.2 h, Nat.zero_add]
  cases hlast : text.getLast? with
  | none => simp [List.getLast?_eq_none_iff.1 hlast]
  | some c =>
    have hc : c ∈ text := List.mem_of_getLast? hlast
    have hne : c ≠ '\n' := fun hn => h (hn ▸ hc)
    simp [hne, List.ne_nil_of_mem hc]

theorem utf8Size_ofNat_byte (b : UInt8) :
    (Char.ofNat b.toNat).utf8Size = if 128 ≤ b then 2 else 1 := by
  have hval : (Char.ofNat b.toNat).val.toNat = b.toNat := Text.Latin1.toNat_ofNat_byte b
  have hlt : b.toNat < 256 := b.toNat_lt
  split <;> rename_i h <;> rw [UInt8.le_iff_toNat_le, show (128 : UInt8).toNat = 128 from rfl] at h
  · rw [Char.utf8Size_eq_two_iff, UInt32.lt_iff_toNat_lt, UInt32.le_iff_toNat_le, hval]
    exact ⟨h, Nat.le_of_lt (Nat.lt_trans hlt (by decide))⟩
  · rw [Char.utf8Size_eq_one_iff, UInt32.le_iff_toNat_le, hval]
    exact Nat.le_of_lt_succ (Nat.not_le.1 h)

/-- A byte from 128 on is a character of two bytes. -/
theorem utf8ByteSize_decode (bytes : List UInt8) :
    (String.ofList (Text.Latin1.decode bytes)).utf8ByteSize =
      bytes.length + bytes.countP (128 ≤ ·) := by
  induction bytes with
  | nil => rfl
  | cons b bytes ih =>
    have hcons : String.ofList (Text.Latin1.decode (b :: bytes)) =
        String.singleton (Char.ofNat b.toNat) ++ String.ofList (Text.Latin1.decode bytes) :=
      String.ofList_cons
    rw [hcons, String.utf8ByteSize_append, String.utf8ByteSize_singleton, utf8Size_ofNat_byte, ih,
      List.length_cons, List.countP_cons]
    by_cases hb : 128 ≤ b
    · simp only [hb, decide_true, if_true]
      omega
    · simp only [hb, decide_false, Bool.false_eq_true, if_false]
      omega

theorem Session.report_sourceOfFile {s : Session} {content : List UInt8}
    (hs : s.source = sourceOfFile content) (clock : Clock) (r : Run) :
    let kept := keptBytes content
    (s.report clock r).sourceLines = (if kept = [] then 0 else 1 : ℕ) ∧
      (s.report clock r).sourceBytes = (kept.length + kept.countP (128 ≤ ·) : ℕ) := by
  intro kept
  have hsource : s.source = String.ofList (Text.Latin1.decode kept) := by
    rw [hs, sourceOfFile, joinLines_eq_decode]
  have hlines : '\n' ∉ Text.Latin1.decode kept := by
    rw [← joinLines_eq_decode, joinLines_eq_filter]
    exact fun h => Bool.false_ne_true (List.mem_filter.1 h).2
  have hnil : Text.Latin1.decode kept = [] ↔ kept = [] := List.map_eq_nil_iff
  constructor
  · rw [Session.report, hsource, String.toList_ofList, countLines_of_not_mem hlines]
    simp only [hnil]
  · rw [Session.report, hsource, utf8ByteSize_decode]

namespace CommandLine

variable {j : Job} {clock : Clock} {n : ℕ} {input : List UInt8}

theorem Job.exists_report_of_serve (hstats : j.session.config.reportStats = true)
    (h : ((j.serve .streams clock n).run { stdin := input }).1 = some 0) :
    ∃ (front : String) (r : Run), ((j.serve .streams clock n).run { stdin := input }).2.stderr =
      front ++ ((j.session.report clock r).text ++ "\n") := by
  have hserve : (j.serve .streams clock n).run { stdin := input } =
      let shown := j.rounds .streams j.session.program n (j.session.start []) { stdin := input }
      j.conclude .streams clock shown.1 shown.2 := rfl
  rw [hserve] at h ⊢
  generalize j.rounds .streams j.session.program n (j.session.start []) { stdin := input } = shown
    at h ⊢
  obtain ⟨q, s⟩ := shown
  dsimp only at h ⊢
  rw [conclude_streams] at h ⊢
  cases q with
  | running r => cases h
  | failed f r => cases h
  | halted r =>
    refine ⟨s.stderr ++ if j.verbose then haltedText r.summary else "", r, ?_⟩
    simp only [ending, Option.elim_some, Session.epilogue, hstats, if_true, String.append_assoc]

/-- The report of a run describes the text that was run, which is not that of the file: the ends of
its lines have been taken out, so that there is one line at most, and of the bytes that are left
those from 128 on count twice. -/
theorem report_of_joined_lines (texts : List String) (a : Arguments)
    (read : String → Except FileFault (List UInt8)) (content input : List UInt8) (clock : Clock)
    (ha : Arguments.ofTexts texts = .ok a) (hstats : a.choices.stats = true)
    (hname : a.file.toList.contains '\x00' = false) (hread : read a.file = .ok content) :
    let kept := keptBytes content
    ∃ job, Stage.ofArguments texts read = .ready job ∧ ∀ n,
      let out := (job.serve .streams clock n).run { stdin := input }
      out.1 = some 0 → ∃ (front : String) (report : Report),
        out.2.stderr = front ++ (report.text ++ "\n") ∧
        report.sourceLines = (if kept = [] then 0 else 1 : ℕ) ∧
        report.sourceBytes = (kept.length + kept.countP (128 ≤ ·) : ℕ) := by
  intro kept
  let job : Job := ⟨⟨sourceOfFile content, a.choices.config⟩, a.choices.verbose⟩
  refine ⟨job, ?_, fun n => ?_⟩
  · simp only [Stage.ofArguments, ha, hname, hread]
    rfl
  · intro out hout
    obtain ⟨front, r, htold⟩ := Job.exists_report_of_serve (j := job) hstats hout
    exact ⟨front, job.session.report clock r, htold, job.session.report_sourceOfFile rfl clock r⟩

/-- A file of two lines and four bytes is reported to have one line and two bytes. -/
theorem report_of_two_lines :
    let texts := ["f", "-m", "1", "--stats"]
    let a : Arguments := ⟨"f", { memorySize := ⟨1, by decide⟩, stats := true }⟩
    let content : List UInt8 := [43, 10, 43, 10]
    let read : String → Except FileFault (List UInt8) := fun _ => .ok content
    Arguments.ofTexts texts = .ok a ∧ a.choices.stats = true ∧
    a.file.toList.contains '\x00' = false ∧ read a.file = .ok content ∧
    ∃ job, Stage.ofArguments texts read = .ready job ∧
      let out := (job.serve .streams {} 3).run {}
      out.1 = some 0 ∧ ∃ (front : String) (report : Report),
        out.2.stderr = front ++ (report.text ++ "\n") ∧
        (report.sourceLines = 1 ∧ countLines (Text.Latin1.decode content) = 2) ∧
        report.sourceBytes = 2 ∧ content.length = 4 := by
  intro texts a content read
  have ha : Arguments.ofTexts texts = .ok a := rfl
  have hname : a.file.toList.contains '\x00' = false := by decide
  obtain ⟨job, hjob, hrun⟩ :=
    report_of_joined_lines texts a read content [] {} ha rfl hname rfl
  have hsession : job.session = ⟨sourceOfFile content, a.choices.config⟩ :=
    congrArg Job.session (Stage.ready.inj hjob).symm
  have hverbose : job.verbose = false := congrArg Job.verbose (Stage.ready.inj hjob).symm
  let q := Session.forward ⟨sourceOfFile content, a.choices.config⟩ 3
    (Session.start ⟨sourceOfFile content, a.choices.config⟩ [])
  have hq : q = .halted q.run := by decide
  have hwhole : job.session.forward 3 (job.session.start []) = .halted q.run := by
    rw [hsession]
    exact hq
  obtain ⟨hcode, -, -⟩ := job.serve_streams hwhole
    (rfl : (job.serve .streams {} 3).run { stdin := [] } = _)
  rw [job.ending_halted hverbose] at hcode
  obtain ⟨front, report, htold, hlines, hbytes⟩ := hrun 3 hcode
  exact ⟨ha, rfl, hname, rfl, job, hjob, hcode, front, report, htold, ⟨hlines, by decide⟩, hbytes,
    rfl⟩

end CommandLine

end TapeMachine
