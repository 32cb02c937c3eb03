/-!
Sizes in bytes as they are written on a command line: a plain number, or a decimal number with a unit such as
`kB` or `MiB` in any case. Blanks may stand in between, and whatever digits and points follow them is passed over.
-/

namespace ChunkSort.CommandLine

def digitValue (c : Char) : Nat := c.toNat - '0'.toNat

def decimalValue (digits : List Char) : Nat := digits.foldl (fun n c => 10 * n + digitValue c) 0

/-- An unsigned 64-bit number in decimal digits. One plus sign may stand in front. -/
def parseWord (text : String) : Option Nat :=
  let digits := match text.toList with
    | '+' :: digits => digits
    | digits => digits
  if digits ≠ [] ∧ digits.all Char.isDigit ∧ decimalValue digits ≤ 0xFFFFFFFFFFFFFFFF then
    some (decimalValue digits)
  else
    none

namespace ByteSize

def isBlank (c : Char) : Bool :=
  c.isWhitespace || [0x0b, 0x0c, 0x85, 0xa0, 0x1680, 0x2028, 0x2029, 0x202f, 0x205f, 0x3000].contains c.toNat ||
    0x2000 ≤ c.toNat && c.toNat ≤ 0x200a

/-- The small form of a letter, as far as units are concerned. The kelvin sign is a capital k. -/
def smallLetter (c : Char) : Char := if c.toNat = 0x212a then 'k' else c.toLower

def powers : List (Char × Nat) := [('k', 1), ('m', 2), ('g', 3), ('t', 4), ('p', 5)]

def unitBytes? : List Char → Option Nat
  | ['b'] => some 1
  | c :: rest => do
    let power ← powers.lookup c
    if rest = [] ∨ rest = ['b'] then some (Nat.pow 1000 power)
    else if rest = ['i'] ∨ rest = ['i', 'b'] then some (Nat.pow 1024 power)
    else none
  | [] => none

def isNumeric (c : Char) : Bool := c.isDigit || c == '.'

def parseDecimal (text : List Char) : Option Float :=
  let whole := text.takeWhile Char.isDigit
  let fraction := match text.dropWhile Char.isDigit with
    | '.' :: rest => some rest
    | [] => some []
    | _ => none
  fraction.bind fun fraction =>
    if fraction.all Char.isDigit ∧ whole ++ fraction ≠ [] then
      some (Float.ofScientific (decimalValue (whole ++ fraction)) true fraction.length)
    else
      none

/-- The product of number and unit is cut off to a whole 64-bit number. -/
def parse (text : String) : Option Nat :=
  match parseWord text with
  | some n => some n
  | none => do
    let number ← parseDecimal (text.toList.takeWhile isNumeric)
    let unit ← unitBytes? ((text.toList.dropWhile fun c => isNumeric c || isBlank c).map smallLetter)
    return (number * Float.ofNat unit).toUInt64.toNat

end ByteSize
end ChunkSort.CommandLine
