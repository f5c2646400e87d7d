import TapeMachine.Text.Latin1

namespace TapeMachine

inductive FileFault where
  | notFound
  | isDirectory
  | notDirectory
  | nameTooLong
  | other (cause : String)
  deriving DecidableEq

def FileFault.message : FileFault → String
  | notFound => "No such file or directory"
  | isDirectory => "Is a directory"
  | notDirectory => "Not a directory"
  | nameTooLong => "File name too long"
  | other cause => cause

def isLineEnd (c : Char) : Bool := c = '\r' || c = '\n'

/-- Reads on after `seen`, which is in reverse, and takes every line end for one line feed. -/
def translateFrom (seen : List Char) : List Char → List Char
  | [] => seen.reverse
  | '\r' :: '\n' :: rest => translateFrom ('\n' :: seen) rest
  | '\r' :: rest => translateFrom ('\n' :: seen) rest
  | c :: rest => translateFrom (c :: seen) rest

def splitLines (text : List Char) : List (List Char) :=
  text.foldr (fun c lines =>
    if c = '\n' then [c] :: lines
    else match lines with
      | [] => [[c]]
      | line :: rest => (c :: line) :: rest) []

def stripLineEnds (line : List Char) : List Char := (line.reverse.dropWhile isLineEnd).reverse

/-- The text of a program file: a character for each byte, and its lines run together. -/
def joinLines (content : List UInt8) : List Char :=
  (splitLines (translateFrom [] (Text.Latin1.decode content))).flatMap stripLineEnds

def sourceOfFile (content : List UInt8) : String := String.ofList (joinLines content)

/-- What is read on holds no carriage return, and no other character is lost. -/
theorem translateFrom_spec (seen text : List Char) (h : '\r' ∉ seen) :
    '\r' ∉ translateFrom seen text ∧
      (translateFrom seen text).filter (!isLineEnd ·) =
        (seen.reverse ++ text).filter (!isLineEnd ·) := by
  fun_induction translateFrom seen text with
  | case1 seen => simpa using h
  | case2 seen rest ih | case3 seen rest _ ih =>
    obtain ⟨hr, hf⟩ := ih (by simpa using h)
    refine ⟨hr, hf.trans ?_⟩
    simp [show isLineEnd '\r' = true from rfl, show isLineEnd '\n' = true from rfl]
  | case4 seen c rest _ hc ih =>
    obtain ⟨hr, hf⟩ := ih (by simpa [eq_comm] using ⟨hc, h⟩)
    exact ⟨hr, by simp [hf]⟩

theorem splitLines_cons (c : Char) (text : List Char) :
    splitLines (c :: text) =
      if c = '\n' then [c] :: splitLines text
      else match splitLines text with
        | [] => [[c]]
        | line :: rest => (c :: line) :: rest := rfl

theorem stripLineEnds_cons {c : Char} (h : isLineEnd c = false) (line : List Char) :
    stripLineEnds (c :: line) = c :: stripLineEnds line := by
  unfold stripLineEnds
  rw [List.reverse_cons, List.dropWhile_append]
  split
  · rename_i hl
    simp [List.isEmpty_iff.1 hl, h]
  · simp

/-- A line end is not stripped from within a line, for there is none. -/
theorem flatMap_splitLines {text : List Char} (h : '\r' ∉ text) :
    (splitLines text).flatMap stripLineEnds = text.filter (!isLineEnd ·) := by
  induction text with
  | nil => rfl
  | cons c text ih =>
    obtain ⟨hc, htext⟩ : '\r' ≠ c ∧ '\r' ∉ text := by simpa using h
    rw [splitLines_cons]
    split <;> rename_i hn
    · rw [hn, List.flatMap_cons, ih htext]
      rfl
    · have hend : isLineEnd c = false := by simp [isLineEnd, hc.symm, hn]
      rw [List.filter_cons_of_pos (by simp [hend]), ← ih htext]
      cases splitLines text with
      | nil => simp only [List.flatMap_cons, List.flatMap_nil, stripLineEnds_cons hend,
          List.append_nil, show stripLineEnds [] = [] from rfl]
      | cons line rest => simp [stripLineEnds_cons hend]

theorem joinLines_eq_filter (content : List UInt8) :
    joinLines content = (Text.Latin1.decode content).filter (!isLineEnd ·) := by
  obtain ⟨hr, hf⟩ := translateFrom_spec [] (Text.Latin1.decode content) (by simp)
  rw [joinLines, flatMap_splitLines hr, hf]
  rfl

example : joinLines [43, 13, 10, 45, 13, 13, 46, 10] = ['+', '-', '.'] := by decide

end TapeMachine
