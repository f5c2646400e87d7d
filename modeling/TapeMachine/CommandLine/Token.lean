import TapeMachine.CommandLine.Usage
import TapeMachine.Text.Digit

namespace TapeMachine.CommandLine

/-- A switch as it was written: by which kind of spelling, and what was attached to it. -/
structure Written where
  switch : Switch
  isLong : Bool
  attached : Option (List Char) := none
  deriving DecidableEq

inductive Token where
  | plain (text : String)
  | separator
  | written (w : Written)
  | unknown (text : String)
  deriving DecidableEq

def isLongForm : List Char → Bool
  | '-' :: '-' :: _ => true
  | _ => false

def splitAtEquals (text : List Char) : List Char × Option (List Char) :=
  (text.takeWhile (· ≠ '='),
    match text.dropWhile (· ≠ '=') with
    | [] => none
    | _ :: rest => some rest)

/-- The switches that a text may stand for that spells none in full: long spellings that it
begins, or a short one with something attached. -/
def candidates (text : List Char) : List (String × Written) :=
  if isLongForm text then
    let (name, attached) := splitAtEquals text
    (Switch.spellings.filter fun e => name.isPrefixOf e.1.toList).map fun e =>
      (e.1, ⟨e.2, true, attached⟩)
  else
    (Switch.spellings.filter fun e => e.1.toList = text.take 2).map fun e =>
      (e.1, ⟨e.2, false, some (text.drop 2)⟩)

/-- A minus sign and digits, which may have a decimal point before the last of them; a line feed
may follow. -/
def looksNegative : List Char → Bool
  | '-' :: rest =>
    let body := if rest.getLast? = some '\n' then rest.dropLast else rest
    match body.dropWhile Text.isDecimal with
    | [] => !body.isEmpty
    | '.' :: fraction => !fraction.isEmpty && fraction.all Text.isDecimal
    | _ => false
  | _ => false

def spelled? (text : String) : Option Written :=
  match Switch.ofSpelling? text with
  | some s => some ⟨s, isLongForm text.toList, none⟩
  | none =>
    match splitAtEquals text.toList with
    | (_, none) => none
    | (name, some attached) =>
      (Switch.ofSpelling? (String.ofList name)).map fun s => ⟨s, isLongForm name, some attached⟩

def Token.ofText (text : String) : Except UsageFault Token :=
  match text.toList with
  | '-' :: _ :: _ =>
    match spelled? text with
    | some w => .ok (.written w)
    | none =>
      match candidates text.toList with
      | [(_, w)] => .ok (.written w)
      | [] =>
        if looksNegative text.toList || text.toList.contains ' ' then .ok (.plain text)
        else .ok (.unknown text)
      | several => .error (.ambiguous text (several.map (·.1)))
  | _ => .ok (.plain text)

/-- Behind the first separator every argument is plain. -/
def tokens : List String → Except UsageFault (List Token)
  | [] => .ok []
  | text :: rest =>
    if text = "--" then .ok (.separator :: rest.map .plain)
    else match Token.ofText text with
      | .error f => .error f
      | .ok t => (tokens rest).map (t :: ·)

end TapeMachine.CommandLine
