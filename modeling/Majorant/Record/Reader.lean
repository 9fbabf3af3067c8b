import Majorant.Record.Datum

/-!
# Reading data records

The written form of data: texts between double quotes with escapes, numbers, lists in brackets and
records in braces, with blanks between any two parts.
-/

namespace Majorant
namespace Datum

def isBlank (c : Char) : Bool := c = ' ' || c = '\t' || c = '\n' || c = '\r'

def skipBlanks (cs : List Char) : List Char := cs.dropWhile isBlank

def hexDigit? (c : Char) : Option Nat :=
  if c.isDigit then some (c.toNat - '0'.toNat)
  else if 'a' ≤ c && c ≤ 'f' then some (c.toNat - 'a'.toNat + 10)
  else if 'A' ≤ c && c ≤ 'F' then some (c.toNat - 'A'.toNat + 10)
  else none

def hex4? (a b c d : Char) : Option Nat := do
  let a ← hexDigit? a
  let b ← hexDigit? b
  let c ← hexDigit? c
  let d ← hexDigit? d
  return ((a * 16 + b) * 16 + c) * 16 + d

def escape? (c : Char) : Option Nat :=
  if c = '"' || c = '\\' || c = '/' then some c.toNat
  else if c = 'b' then some 8
  else if c = 'f' then some 12
  else if c = 'n' then some 10
  else if c = 'r' then some 13
  else if c = 't' then some 9
  else none

/-- **A text after its opening quote**, as the codes of its characters, and what follows the closing
quote. -/
def readText : List Char → Option (List Nat × List Char)
  | [] => none
  | c :: rest =>
    if c = '"' then some ([], rest)
    else if c = '\\' then
      match rest with
      | 'u' :: h₁ :: h₂ :: h₃ :: h₄ :: more =>
        match hex4? h₁ h₂ h₃ h₄ with
        | some n => (readText more).map fun (ns, r) => (n :: ns, r)
        | none => none
      | e :: more =>
        match escape? e with
        | some n => (readText more).map fun (ns, r) => (n :: ns, r)
        | none => none
      | [] => none
    else if c.toNat < 32 then none
    else (readText rest).map fun (ns, r) => (c.toNat :: ns, r)

/-- Characters from their codes; two halves of a pair make one character. -/
def characters : List Nat → List Char
  | [] => []
  | n :: rest =>
    if 0xD800 ≤ n && n < 0xDC00 then
      match rest with
      | m :: more =>
        if 0xDC00 ≤ m && m < 0xE000 then
          Char.ofNat (0x10000 + (n - 0xD800) * 0x400 + (m - 0xDC00)) :: characters more
        else '�' :: characters (m :: more)
      | [] => ['�']
    else if 0xDC00 ≤ n && n < 0xE000 then '�' :: characters rest
    else Char.ofNat n :: characters rest
termination_by ns => ns.length

def wholePart : List Char → List Char × List Char
  | '0' :: rest => (['0'], rest)
  | cs => (cs.takeWhile Char.isDigit, cs.dropWhile Char.isDigit)

def fractionPart : List Char → Option (List Char) × List Char
  | '.' :: rest =>
    let ds := rest.takeWhile Char.isDigit
    if ds.isEmpty then (none, '.' :: rest) else (some ds, rest.dropWhile Char.isDigit)
  | cs => (none, cs)

def readNumber (cs : List Char) : Option (Datum × List Char) :=
  let (negative, cs) := match cs with
    | '-' :: rest => (true, rest)
    | _ => (false, cs)
  let (whole, rest) := wholePart cs
  if whole.isEmpty then none
  else
    let (frac, rest) := fractionPart rest
    match frac, Decimal.exponent? rest with
    | none, none =>
      let n : Int := Decimal.natural whole
      some (integer (if negative then -n else n), rest)
    | frac, some (e, more) => some (decimal (Decimal.value negative whole (frac.getD []) e), more)
    | some frac, none => some (decimal (Decimal.value negative whole frac 0), rest)

def readWord (word : String) (d : Datum) (cs : List Char) : Option (Datum × List Char) :=
  if word.toList.isPrefixOf cs then some (d, cs.drop word.length) else none

mutual

def readValue : Nat → List Char → Option (Datum × List Char)
  | 0, _ => none
  | fuel + 1, cs =>
    match cs with
    | '"' :: rest => (readText rest).map fun (ns, r) => (text (String.ofList (characters ns)), r)
    | '[' :: rest =>
      match skipBlanks rest with
      | ']' :: more => some (list [], more)
      | more => (readItems fuel more).map fun (ds, r) => (list ds, r)
    | '\x7b' :: rest =>
      match skipBlanks rest with
      | '\x7d' :: more => some (record [], more)
      | more => (readFields fuel [] more).map fun (fs, r) => (record fs, r)
    | 'n' :: _ => readWord "null" null cs
    | 't' :: _ => readWord "true" (bool true) cs
    | 'f' :: _ => readWord "false" (bool false) cs
    | _ => readNumber cs

def readItems : Nat → List Char → Option (List Datum × List Char)
  | 0, _ => none
  | fuel + 1, cs =>
    match readValue fuel cs with
    | none => none
    | some (d, rest) =>
      match skipBlanks rest with
      | ']' :: more => some ([d], more)
      | ',' :: more => (readItems fuel (skipBlanks more)).map fun (ds, r) => (d :: ds, r)
      | _ => none

/-- The fields of a record, up to the closing brace.  Of two fields of one name the later counts. -/
def readFields : Nat → List (String × Datum) → List Char → Option (List (String × Datum) × List Char)
  | 0, _, _ => none
  | fuel + 1, done, cs =>
    match cs with
    | '"' :: rest =>
      match readText rest with
      | none => none
      | some (ns, rest) =>
        match skipBlanks rest with
        | ':' :: rest =>
          match readValue fuel (skipBlanks rest) with
          | none => none
          | some (d, rest) =>
            let done := setField (String.ofList (characters ns)) d done
            match skipBlanks rest with
            | '\x7d' :: more => some (done, more)
            | ',' :: more => readFields fuel done (skipBlanks more)
            | _ => none
        | _ => none
    | _ => none

end

/-- **A whole text as one piece of data.**  Every call but one in two reads a character, which bounds
their number. -/
def read? (s : String) : Option Datum :=
  let cs := skipBlanks s.toList
  match readValue (2 * cs.length + 2) cs with
  | some (d, rest) => if (skipBlanks rest).isEmpty then some d else none
  | none => none

/-- A whole text as one piece of data, or what is wrong with it. -/
def read (s : String) : Except Fault Datum :=
  match read? s with
  | some d => .ok d
  | none => .error .unreadable

end Datum
end Majorant
