/-!
# Columns

Texts are brought to the width of their column with blanks; a text that is wider stays whole.
-/

namespace Majorant
namespace Text

def blanks (n : Nat) : String := String.ofList (List.replicate n ' ')

def padRight (width : Nat) (s : String) : String := s ++ blanks (width - s.length)

def padLeft (width : Nat) (s : String) : String := blanks (width - s.length) ++ s

/-- **The lines of a text.**  A line break at the end opens no further line. -/
def lines (s : String) : List String :=
  let parts := s.splitOn "\n"
  if parts.getLast? = some "" then parts.dropLast else parts

end Text
end Majorant
