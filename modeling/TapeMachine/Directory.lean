import TapeMachine.SourceFile

namespace TapeMachine

/-- A working directory: files with their contents and directories, by paths of names. Around it
are directories of which nothing is known. -/
structure Directory where
  files : List (List String × List UInt8) := []
  folders : List (List String) := []

namespace Directory

def maxName : Nat := 255

def maxPath : Nat := 4095

def names (path : String) : List String := (path.splitOn "/").filter (· ≠ "")

/-- Where a file or directory is created that is named from the working directory. -/
def address (path : String) : List String := (names path).filter (· ≠ ".")

/-- A directory stands at every path on the way to what is known to exist. -/
def hasFolder (d : Directory) (path : List String) : Bool :=
  path.isEmpty || d.folders.any path.isPrefixOf ||
    d.files.any fun f => f.1 ≠ path && path.isPrefixOf f.1

def content? (d : Directory) (path : List String) : Option (List UInt8) :=
  (d.files.find? fun f => f.1 = path).map (·.2)

inductive Place where
  | inside (path : List String)
  | outside

/-- Follows names from a directory; `asFolder` demands a directory at the end. -/
def walk (d : Directory) (asFolder : Bool) : Place → List String → Except FileFault (List UInt8)
  | _, [] => .error .isDirectory
  | .outside, name :: rest =>
    if name = "." || name = ".." then d.walk asFolder .outside rest
    else if maxName < name.utf8ByteSize then .error .nameTooLong
    else .error .notFound
  | .inside path, name :: rest =>
    if name = "." then d.walk asFolder (.inside path) rest
    else if name = ".." then
      d.walk asFolder (if path.isEmpty then .outside else .inside path.dropLast) rest
    else if maxName < name.utf8ByteSize then .error .nameTooLong
    else match d.content? (path ++ [name]) with
      | some content => if rest.isEmpty && !asFolder then .ok content else .error .notDirectory
      | none =>
        if d.hasFolder (path ++ [name]) then d.walk asFolder (.inside (path ++ [name])) rest
        else .error .notFound

def read (d : Directory) (path : String) : Except FileFault (List UInt8) :=
  if path.isEmpty then .error .notFound
  else if maxPath < path.utf8ByteSize then .error .nameTooLong
  else d.walk (path.endsWith "/") (if path.startsWith "/" then .outside else .inside [])
    (names path)

end Directory

end TapeMachine
