import TapeMachine.CommandLine.Job
import TapeMachine.Directory
import Mathlib.Data.List.Basic

namespace TapeMachine

namespace Directory

def Plain (name : String) : Prop := name ≠ "." ∧ name ≠ ".." ∧ name.utf8ByteSize ≤ maxName

/-- A file stands on the way that the names lead from a directory. -/
def Barred (d : Directory) (path route : List String) : Prop :=
  ∃ front rest, front ≠ [] ∧ rest ≠ [] ∧ front ++ rest = route ∧
    ∃ content, d.content? (path ++ front) = some content

def target (d : Directory) (asFolder : Bool) (path : List String) :
    Except FileFault (List UInt8) :=
  match d.content? path with
  | some content => if asFolder then .error .notDirectory else .ok content
  | none => .error (if d.hasFolder path then .isDirectory else .notFound)

variable {d : Directory} {path more route : List String} {name : String} {content : List UInt8}
  {asFolder : Bool}

theorem mem_files_of_content? (h : d.content? path = some content) : (path, content) ∈ d.files := by
  obtain ⟨f, hf, rfl⟩ := Option.map_eq_some_iff.1 h
  have hpath : f.1 = path := by simpa using List.find?_some hf
  exact hpath ▸ List.mem_of_find?_eq_some hf

theorem hasFolder_of_mem_files (h : (more, content) ∈ d.files) (hpre : path <+: more)
    (hne : more ≠ path) : d.hasFolder path = true := by
  have hfile : (d.files.any fun f => f.1 ≠ path && path.isPrefixOf f.1) = true :=
    List.any_eq_true.2 ⟨_, h, by simp [hne, hpre]⟩
  rw [hasFolder, hfile, Bool.or_true]

theorem hasFolder_of_isPrefix (hpre : path <+: more) (h : d.hasFolder more = true) :
    d.hasFolder path = true := by
  simp only [hasFolder, Bool.or_eq_true, List.isEmpty_iff, List.any_eq_true, Bool.and_eq_true,
    decide_eq_true_eq, List.isPrefixOf_iff_prefix] at h
  obtain (rfl | ⟨f, hf, hmore⟩) | ⟨f, hf, hne, hmore⟩ := h
  · rw [List.prefix_nil.1 hpre]
    rfl
  · have hfolder : (d.folders.any path.isPrefixOf) = true :=
      List.any_eq_true.2 ⟨f, hf, by simpa using hpre.trans hmore⟩
    simp [hasFolder, hfolder]
  · refine hasFolder_of_mem_files hf (hpre.trans hmore) ?_
    rintro rfl
    exact hne (hmore.eq_of_length_le hpre.length_le).symm

theorem barred_cons : d.Barred path (name :: route) ↔ route ≠ [] ∧
    ((∃ content, d.content? (path ++ [name]) = some content) ∨
      d.Barred (path ++ [name]) route) := by
  constructor
  · rintro ⟨front, rest, hfront, hrest, happ, content, hc⟩
    cases front with
    | nil => exact absurd rfl hfront
    | cons first front =>
      obtain ⟨rfl, rfl⟩ := List.cons.inj happ
      refine ⟨by simp [hrest], ?_⟩
      cases front with
      | nil => exact .inl ⟨content, hc⟩
      | cons second front =>
        exact .inr ⟨second :: front, rest, by simp, hrest, rfl, content, by simpa using hc⟩
  · rintro ⟨hne, ⟨content, hc⟩ | ⟨front, rest, -, hrest, rfl, content, hc⟩⟩
    · exact ⟨[name], route, by simp, hne, rfl, content, hc⟩
    · exact ⟨name :: front, rest, by simp, hrest, rfl, content, by simpa using hc⟩

theorem Barred.hasFolder (h : d.Barred path route) : d.hasFolder path = true := by
  obtain ⟨front, rest, hfront, -, -, content, hc⟩ := h
  refine hasFolder_of_mem_files (mem_files_of_content? hc) (List.prefix_append _ _) ?_
  simpa using hfront

theorem walk_cons (h : Plain name) :
    d.walk asFolder (.inside path) (name :: route) = match d.content? (path ++ [name]) with
      | some content => if route.isEmpty && !asFolder then .ok content else .error .notDirectory
      | none =>
        if d.hasFolder (path ++ [name]) then d.walk asFolder (.inside (path ++ [name])) route
        else .error .notFound := by
  obtain ⟨hdot, hdots, hlen⟩ := h
  cases hc : d.content? (path ++ [name]) with
  | some content => simp only [walk, hdot, hdots, Nat.not_lt.2 hlen, hc, if_false]
  | none => simp only [walk, hdot, hdots, Nat.not_lt.2 hlen, hc, if_false]

theorem walk_of_barred (hplain : ∀ name ∈ route, Plain name) (h : d.Barred path route) :
    d.walk asFolder (.inside path) route = .error .notDirectory := by
  induction route generalizing path with
  | nil =>
    obtain ⟨front, rest, hfront, -, happ, -⟩ := h
    exact absurd (List.append_eq_nil_iff.1 happ).1 hfront
  | cons name route ih =>
    obtain ⟨hname, hnames⟩ := List.forall_mem_cons.1 hplain
    obtain ⟨hne, h⟩ := barred_cons.1 h
    rw [walk_cons hname]
    cases hc : d.content? (path ++ [name]) with
    | some content => simp [hne]
    | none =>
      obtain ⟨content, hcontent⟩ | h := h
      · cases hc.symm.trans hcontent
      · simp only [h.hasFolder, if_true]
        exact ih hnames h

/-- Along plain names, nothing matters but what stands at their end and what bars the way. -/
theorem walk_of_not_barred (hplain : ∀ name ∈ route, Plain name) (hne : route ≠ [])
    (h : ¬ d.Barred path route) :
    d.walk asFolder (.inside path) route = d.target asFolder (path ++ route) := by
  induction route generalizing path with
  | nil => exact absurd rfl hne
  | cons name route ih =>
    obtain ⟨hname, hnames⟩ := List.forall_mem_cons.1 hplain
    have happ : path ++ name :: route = path ++ [name] ++ route := by simp
    rw [walk_cons hname, happ]
    cases hc : d.content? (path ++ [name]) with
    | some content =>
      -- a file is the end of the way
      have hnil : route = [] := by
        by_contra hmore
        exact h (barred_cons.2 ⟨hmore, .inl ⟨content, hc⟩⟩)
      subst hnil
      cases asFolder <;> simp [target, hc]
    | none =>
      cases hf : d.hasFolder (path ++ [name]) with
      | true =>
        rw [if_pos rfl]
        by_cases hnil : route = []
        · subst hnil
          simp [walk, target, hc, hf]
        · exact ih hnames hnil fun hb => h (barred_cons.2 ⟨hnil, .inr hb⟩)
      | false =>
        have hpre : path ++ [name] <+: path ++ [name] ++ route := List.prefix_append _ _
        have hnone : d.content? (path ++ [name] ++ route) = none := by
          by_cases hnil : route = []
          · simpa [hnil] using hc
          · refine Option.eq_none_iff_forall_ne_some.2 fun content hcontent => ?_
            have := hasFolder_of_mem_files (mem_files_of_content? hcontent) hpre (by simp [hnil])
            simp [hf] at this
        have hfolder : d.hasFolder (path ++ [name] ++ route) = false :=
          Bool.eq_false_iff.2 fun hmore => by simp [hasFolder_of_isPrefix hpre hmore] at hf
        simp only [target, hnone, hfolder, Bool.false_eq_true, if_false]

theorem exists_file_of_walk {start : Place} (h : d.walk asFolder start route = .ok content) :
    ∃ place, (place, content) ∈ d.files := by
  fun_induction walk d asFolder start route with
  | case8 path name rest _ _ found _ hc =>
    cases h
    exact ⟨_, mem_files_of_content? hc⟩
  | _ => simp_all

/-- A path from the working directory downwards, that neither stays nor goes back anywhere. -/
structure PlainPath (path : String) : Prop where
  nonempty : path.isEmpty = false
  relative : path.startsWith "/" = false
  short : path.utf8ByteSize ≤ maxPath
  named : names path ≠ []
  plain : ∀ name ∈ names path, Plain name

theorem PlainPath.address_eq {path : String} (h : PlainPath path) : address path = names path :=
  List.filter_eq_self.2 fun name hname => by simpa using (h.plain name hname).1

theorem read_eq_walk {path : String} (h : PlainPath path) :
    d.read path = d.walk (path.endsWith "/") (.inside []) (address path) := by
  simp only [read, h.nonempty, Nat.not_lt.2 h.short, h.relative, h.address_eq,
    Bool.false_eq_true, if_false]

theorem read_of_barred {path : String} (h : PlainPath path) (hb : d.Barred [] (address path)) :
    d.read path = .error .notDirectory := by
  rw [read_eq_walk h, h.address_eq]
  rw [h.address_eq] at hb
  exact walk_of_barred h.plain hb

theorem read_of_not_barred {path : String} (h : PlainPath path)
    (hb : ¬ d.Barred [] (address path)) :
    d.read path = d.target (path.endsWith "/") (address path) := by
  rw [read_eq_walk h]
  rw [h.address_eq] at hb ⊢
  exact walk_of_not_barred h.plain h.named hb

theorem exists_file_of_read {path : String} (h : d.read path = .ok content) :
    ∃ place, (place, content) ∈ d.files := by
  unfold read at h
  split at h
  · cases h
  · split at h
    · cases h
    · exact exists_file_of_walk h

end Directory

namespace CommandLine

/-- The program that the command runs in a directory is a file of it. -/
theorem exists_file_of_ready {texts : List String} {d : Directory} {job : Job}
    (h : Stage.ofArguments texts d.read = .ready job) :
    ∃ place content, (place, content) ∈ d.files ∧ job.session.source = sourceOfFile content := by
  unfold Stage.ofArguments at h
  split at h
  · cases h
  · split at h
    · cases h
    · split at h <;> rename_i hread <;> cases h
      obtain ⟨place, hplace⟩ := Directory.exists_file_of_read hread
      exact ⟨place, _, hplace, rfl⟩

/-- In a directory the command runs the file at the address of its argument, and if none is there
it ends with the reason. -/
theorem ofArguments_directory {texts : List String} {a : Arguments} {d : Directory}
    (ha : Arguments.ofTexts texts = .ok a) (hname : a.file.toList.contains '\x00' = false)
    (hpath : Directory.PlainPath a.file) (hend : a.file.endsWith "/" = false)
    (hb : ¬ d.Barred [] (Directory.address a.file)) :
    Stage.ofArguments texts d.read = match d.content? (Directory.address a.file) with
      | some content => .ready ⟨⟨sourceOfFile content, a.choices.config⟩, a.choices.verbose⟩
      | none =>
        let fault : FileFault :=
          if d.hasFolder (Directory.address a.file) then .isDirectory else .notFound
        .finished {
          exitCode := 1
          stderr := "error: cannot read " ++ a.file ++ ": " ++ fault.message ++ "\n" } := by
  have hread := Directory.read_of_not_barred hpath hb
  rw [hend] at hread
  unfold Stage.ofArguments
  simp only [ha, hname, hread, Directory.target, Bool.false_eq_true, if_false]
  cases d.content? (Directory.address a.file) <;> rfl

end CommandLine

end TapeMachine
