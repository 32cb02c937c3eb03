/-!
The parts of the MessagePack format that spilled chunks are written in. Every number takes its shortest
form.
-/

namespace ChunkSort.MessagePack

def bigEndian : (width n : Nat) → List UInt8
  | 0, _ => []
  | width + 1, n => bigEndian width (n / 0x100) ++ [UInt8.ofNat n]

def bigEndianValue (bytes : List UInt8) : Nat := bytes.foldl (fun n b => 256 * n + b.toNat) 0

/-! ### Writing -/

def nil : List UInt8 := [0xc0]

def nat (n : Nat) : List UInt8 :=
  if n < 0x80 then [UInt8.ofNat n]
  else if n < 0x100 then 0xcc :: bigEndian 1 n
  else if n < 0x10000 then 0xcd :: bigEndian 2 n
  else if n < 0x100000000 then 0xce :: bigEndian 4 n
  else 0xcf :: bigEndian 8 n

/-- A number below zero is written in two's complement. -/
def int (i : Int) : List UInt8 :=
  if 0 ≤ i then nat i.toNat
  else if -0x20 ≤ i then bigEndian 1 (i + 0x100).toNat
  else if -0x80 ≤ i then 0xd0 :: bigEndian 1 (i + 0x100).toNat
  else if -0x8000 ≤ i then 0xd1 :: bigEndian 2 (i + 0x10000).toNat
  else if -0x80000000 ≤ i then 0xd2 :: bigEndian 4 (i + 0x100000000).toNat
  else 0xd3 :: bigEndian 8 (i + 0x10000000000000000).toNat

def float64 (bits : UInt64) : List UInt8 := 0xcb :: bigEndian 8 bits.toNat

def arrayHeader (length : Nat) : List UInt8 :=
  if length < 16 then [UInt8.ofNat (0x90 + length)]
  else if length < 0x10000 then 0xdc :: bigEndian 2 length
  else 0xdd :: bigEndian 4 length

def array (items : List (List UInt8)) : List UInt8 := arrayHeader items.length ++ items.flatten

/-- One alternative of a sum: a map of one entry, from its number to its payload. -/
def variant (number : Nat) (payload : List UInt8) : List UInt8 := 0x81 :: (nat number ++ payload)

def optional {α : Type} (encode : α → List UInt8) : Option α → List UInt8
  | none => nil
  | some a => encode a

/-! ### Reading -/

abbrev Reader := StateT (List UInt8) (Except String)

namespace Reader

variable {α : Type}

def byte : Reader UInt8 := do
  match ← get with
  | [] => throw "unexpected end"
  | b :: rest =>
    set rest
    return b

def digits (width : Nat) : Reader Nat := do
  let bytes ← get
  let number := bytes.take width
  if number.length < width then
    throw "unexpected end"
  else
    set (bytes.drop width)
    return bigEndianValue number

def signedDigits (width : Nat) : Reader Int := do
  let n ← digits width
  return if 2 * n < 1 <<< (8 * width) then (n : Int) else (n : Int) - (1 <<< (8 * width) : Nat)

def natFrom (b : UInt8) : Reader Nat :=
  if b.toNat < 0x80 then return b.toNat
  else if b = 0xcc then digits 1
  else if b = 0xcd then digits 2
  else if b = 0xce then digits 4
  else if b = 0xcf then digits 8
  else throw "number expected"

def nat : Reader Nat := do natFrom (← byte)

def intFrom (b : UInt8) : Reader Int :=
  if b.toNat < 0xd0 then do return (← natFrom b)
  else if 0xe0 ≤ b.toNat then return (b.toNat : Int) - 0x100
  else if b = 0xd0 then signedDigits 1
  else if b = 0xd1 then signedDigits 2
  else if b = 0xd2 then signedDigits 4
  else if b = 0xd3 then signedDigits 8
  else throw "number expected"

def int : Reader Int := do intFrom (← byte)

def expect (b : UInt8) : Reader Unit := do
  if (← byte) = b then return () else throw s!"byte {b} expected"

def nil : Reader Unit := expect 0xc0

def float64 : Reader UInt64 := do
  expect 0xcb
  return UInt64.ofNat (← digits 8)

def arrayHeader : Reader Nat := do
  let b ← byte
  if 0x90 ≤ b.toNat ∧ b.toNat < 0xa0 then return b.toNat - 0x90
  else if b = 0xdc then digits 2
  else if b = 0xdd then digits 4
  else throw "array expected"

def items (item : Reader α) : (count : Nat) → Reader (List α)
  | 0 => return []
  | count + 1 => do
    let a ← item
    return a :: (← items item count)

def array (item : Reader α) : Reader (List α) := do items item (← arrayHeader)

def tuple (length : Nat) : Reader Unit := do
  if (← arrayHeader) = length then return () else throw s!"array of {length} expected"

def variant : Reader Nat := do
  expect 0x81
  nat

def optional (item : Reader α) : Reader (Option α) := do
  if (← get).head? = some 0xc0 then
    nil
    return none
  else
    return some (← item)

def decode (item : Reader α) (bytes : List UInt8) : Except String α := do
  let (a, _) ← item bytes
  return a

end Reader
end ChunkSort.MessagePack
