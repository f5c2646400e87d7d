import TapeMachine.CommandLine.Token
import TapeMachine.Text.Numeral

namespace TapeMachine.CommandLine

/-- What the switches ask for; of several values for one switch the last counts. -/
structure Choices where
  memorySize : { n : Nat // 0 < n } := ⟨defaultMemorySize, defaultMemorySize_pos⟩
  eof : EofPolicy := .error
  bounds : BoundsPolicy := .error
  maxSteps : Option Nat := none
  stats : Bool := false
  verbose : Bool := false

structure Arguments where
  file : String
  choices : Choices

inductive Refusal where
  | help
  | usage (fault : UsageFault)
  deriving DecidableEq

def positive (s : Switch) (text : String) : Except Refusal { n : Nat // 0 < n } :=
  match Text.Numeral.integer? text.toList with
  | none => .error (.usage (.notInteger s text))
  | some n =>
    if h : 0 < n then .ok ⟨n.toNat, Int.lt_toNat.2 h⟩
    else .error (.usage (.notPositive s text))

/-- Takes one switch into account; a switch without a value is given the empty text. -/
def Choices.set (c : Choices) (s : Switch) (text : String) : Except Refusal Choices :=
  match s with
  | .help => .error .help
  | .stats => .ok { c with stats := true }
  | .verbose => .ok { c with verbose := true }
  | .memorySize => (positive s text).map fun n => { c with memorySize := n }
  | .maxSteps => (positive s text).map fun n => { c with maxSteps := some n.val }
  | .onEof =>
    match EofPolicy.ofName? text with
    | some eof => .ok { c with eof }
    | none => .error (.usage (.unknownChoice s text (EofPolicy.all.map (·.name))))
  | .outOfBounds =>
    match BoundsPolicy.ofName? text with
    | some bounds => .ok { c with bounds }
    | none => .error (.usage (.unknownChoice s text (BoundsPolicy.all.map (·.name))))

def Choices.setAll (c : Choices) : List (Switch × String) → Except Refusal Choices
  | [] => .ok c
  | (s, text) :: rest =>
    match c.set s text with
    | .error r => .error r
    | .ok c => c.setAll rest

/-- The switches of one argument: those before the last stand alone, and the last may have a text
attached to it. -/
structure Group where
  before : List Switch := []
  last : Switch
  attached : Option (List Char) := none

/-- Takes apart short switches that were written as one argument. -/
def joined (s : Switch) : List Char → Except UsageFault Group
  | [] => .ok { last := s }
  | c :: rest =>
    if s.takesValue then .ok { last := s, attached := some (c :: rest) }
    else match Switch.ofSpelling? (String.ofList ['-', c]) with
      | none => .error (.valueRefused s (String.ofList (c :: rest)))
      | some next => (joined next rest).map fun g => { g with before := s :: g.before }

def Written.group (w : Written) : Except UsageFault Group :=
  match w.attached with
  | none => .ok { last := w.switch }
  | some text =>
    if w.switch.takesValue then .ok { last := w.switch, attached := some text }
    else if w.isLong || text.isEmpty then .error (.valueRefused w.switch (String.ofList text))
    else joined w.switch text

/-- The value of the last switch, unless it has to come from the next argument. -/
def Group.value? (g : Group) : Option String :=
  if g.last.takesValue then g.attached.map String.ofList else some ""

def Group.settings (g : Group) (value : String) : List (Switch × String) :=
  (g.before.map fun s => (s, "")) ++ [(g.last, value)]

structure Draft where
  file : Option String := none
  unrecognized : List String := []
  choices : Choices := {}

namespace Draft

def leave (d : Draft) (texts : List String) : Draft :=
  { d with unrecognized := d.unrecognized ++ texts }

def take (d : Draft) (g : Group) (value : String) : Except Refusal Draft :=
  (d.choices.setAll (g.settings value)).map fun choices => { d with choices }

/-- The first plain argument is the file, and a separator beside it disappears. -/
def read (d : Draft) : List Token → Except Refusal Draft
  | [] => .ok d
  | .plain text :: rest =>
    match d.file with
    | some _ => (d.leave [text]).read rest
    | none =>
      match rest with
      | .separator :: rest => { d with file := some text }.read rest
      | rest => { d with file := some text }.read rest
  | .separator :: rest =>
    match d.file with
    | some _ => (d.leave ["--"]).read rest
    | none =>
      match rest with
      | .plain text :: rest => { d with file := some text }.read rest
      | rest => (d.leave ["--"]).read rest
  | .unknown text :: rest => (d.leave [text]).read rest
  | .written w :: rest =>
    match w.group with
    | .error f => .error (.usage f)
    | .ok g =>
      match g.value? with
      | some value =>
        match d.take g value with
        | .error r => .error r
        | .ok d => d.read rest
      | none =>
        match rest with
        | .plain value :: rest =>
          match d.take g value with
          | .error r => .error r
          | .ok d => d.read rest
        | _ => .error (.usage (.valueMissing g.last))

end Draft

def Arguments.ofTexts (texts : List String) : Except Refusal Arguments :=
  match tokens texts with
  | .error f => .error (.usage f)
  | .ok tokens =>
    match Draft.read {} tokens with
    | .error r => .error r
    | .ok d =>
      match d.file with
      | none => .error (.usage .fileMissing)
      | some file =>
        if d.unrecognized.isEmpty then .ok ⟨file, d.choices⟩
        else .error (.usage (.unrecognized d.unrecognized))

def Choices.config (c : Choices) : Config where
  memorySize := c.memorySize.val
  eof := c.eof
  bounds := c.bounds
  maxSteps := c.maxSteps
  reportStats := c.stats
  memorySize_pos := c.memorySize.property

end TapeMachine.CommandLine
