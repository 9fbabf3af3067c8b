/-!
# Quoted texts

A quoted text stands between single quotes, or between double quotes if it holds a single quote and
no double one.
-/

namespace Majorant
namespace Text

def delimiter (s : String) : Char := if s.contains '\'' && !s.contains '"' then '"' else '\''

def hex2 (n : Nat) : String :=
  String.ofList [Nat.digitChar (n / 16 % 16), Nat.digitChar (n % 16)]

def escaped (d c : Char) : String :=
  if c = d || c = '\\' then String.ofList ['\\', c]
  else if c = '\n' then "\\n"
  else if c = '\r' then "\\r"
  else if c = '\t' then "\\t"
  else if c.toNat < 32 || (127 ≤ c.toNat && c.toNat < 161) || c.toNat = 173 then
    "\\x" ++ hex2 c.toNat
  else String.singleton c

def quote (s : String) : String :=
  let d := delimiter s
  String.singleton d ++ String.join (s.toList.map (escaped d)) ++ String.singleton d

def list (ss : List String) : String := "[" ++ ", ".intercalate (ss.map quote) ++ "]"

end Text
end Majorant
