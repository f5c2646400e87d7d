import TapeMachine.CommandLine.Switch
import TapeMachine.Config
import TapeMachine.Text.Quoted

namespace TapeMachine.CommandLine

inductive UsageFault where
  | ambiguous (text : String) (candidates : List String)
  | valueMissing (switch : Switch)
  | valueRefused (switch : Switch) (text : String)
  | notInteger (switch : Switch) (text : String)
  | notPositive (switch : Switch) (text : String)
  | unknownChoice (switch : Switch) (text : String) (choices : List String)
  | fileMissing
  | unrecognized (texts : List String)
  deriving DecidableEq

def UsageFault.message : UsageFault → String
  | ambiguous text candidates =>
    "ambiguous option: " ++ text ++ " could match " ++ ", ".intercalate candidates
  | valueMissing switch => "argument " ++ switch.title ++ ": expected one argument"
  | valueRefused switch text =>
    "argument " ++ switch.title ++ ": ignored explicit argument " ++ Text.quoted text
  | notInteger switch text =>
    "argument " ++ switch.title ++ ": invalid _positive_int value: " ++ Text.quoted text
  | notPositive switch text =>
    "argument " ++ switch.title ++ ": expected a positive integer, got " ++ text
  | unknownChoice switch text choices =>
    "argument " ++ switch.title ++ ": invalid choice: " ++ Text.quoted text ++ " (choose from " ++
      ", ".intercalate (choices.map Text.quoted) ++ ")"
  | fileMissing => "the following arguments are required: file"
  | unrecognized texts => "unrecognized arguments: " ++ " ".intercalate texts

def usageLines : List String := [
  "usage: bfvm [-h] [--memory-size MEMORY_SIZE] [--on-eof \x7berror,zero,unchanged\x7d]",
  "            [--out-of-bounds \x7berror,wrap,grow\x7d] [--max-steps MAX_STEPS]",
  "            [--stats] [--verbose]",
  "            file"]

def helpLines : List String := usageLines ++ [
  "",
  "Interpret an 8-instruction tape program",
  "",
  "positional arguments:",
  "  file                  Program source file",
  "",
  "options:",
  "  -h, --help            show this help message and exit",
  "  --memory-size MEMORY_SIZE, -m MEMORY_SIZE",
  "                        Tape size in cells (default: 100)",
  "  --on-eof \x7berror,zero,unchanged\x7d",
  "                        Input instruction behaviour at end of input (default:",
  "                        error)",
  "  --out-of-bounds \x7berror,wrap,grow\x7d",
  "                        Tape access outside its bounds (default: error)",
  "  --max-steps MAX_STEPS, -n MAX_STEPS",
  "                        Abort after this many instructions (default:",
  "                        unlimited)",
  "  --stats               Print pipeline statistics to stderr after the run",
  "  --verbose, -v         Enable debug logging to stderr"]

def unlines (lines : List String) : String := String.join (lines.map (· ++ "\n"))

def helpText : String := unlines helpLines

def UsageFault.text (f : UsageFault) : String :=
  unlines usageLines ++ "bfvm: error: " ++ f.message ++ "\n"

end TapeMachine.CommandLine
