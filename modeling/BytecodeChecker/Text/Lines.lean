/-! Text as lines. -/
namespace BytecodeChecker.Text

def line (s : String) : String := s ++ "\n"

def chomp (cs : List Char) : List Char :=
  if cs.getLast? = some '\r' then cs.dropLast else cs

/-- The lines of a text, each ended by a line feed or by the end of the text. The characters of the
line under way are given with the last one first. -/
def linesFrom : (current : List Char) → List Char → List String
  | [], [] => []
  | current@(_ :: _), [] => [String.ofList current.reverse]
  | current, c :: rest =>
    if c = '\n' then String.ofList (chomp current.reverse) :: linesFrom [] rest
    else linesFrom (c :: current) rest

def lines (s : String) : List String := linesFrom [] s.toList

def indent (margin : String) (s : String) : String :=
  String.join ((lines s).map fun l => line (margin ++ l))

end BytecodeChecker.Text
