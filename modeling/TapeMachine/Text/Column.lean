namespace TapeMachine.Text

/-- Spaces in front, up to `width` characters; a longer text stays whole. -/
def padLeft (width : Nat) (text : List Char) : List Char :=
  List.replicate (width - text.length) ' ' ++ text

def padRight (width : Nat) (text : List Char) : List Char :=
  text ++ List.replicate (width - text.length) ' '

def alignRight (width : Nat) (text : String) : String := String.ofList (padLeft width text.toList)

def alignLeft (width : Nat) (text : String) : String := String.ofList (padRight width text.toList)

end TapeMachine.Text
