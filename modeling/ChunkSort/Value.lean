/-!
Column types and cell values. No arithmetic is ever done on a floating-point number, so a value keeps
its 64 bits: zeros keep their sign and NaNs their payload.
-/

namespace ChunkSort

inductive ColumnType where
  | int64
  | float64
  | varLen
  deriving DecidableEq

def ColumnType.name : ColumnType → String
  | int64 => "Int64"
  | float64 => "Float64"
  | varLen => "VarLen"

inductive Value where
  | null
  | int64 (v : Int64)
  | float64 (bits : UInt64)
  | bytes (payload : List UInt8)
  deriving DecidableEq

inductive Kind where
  | null
  | int64
  | float64
  | bytes
  deriving DecidableEq

def Kind.name : Kind → String
  | null => "null"
  | int64 => "int64"
  | float64 => "float64"
  | bytes => "bytes"

def Value.kind : Value → Kind
  | null => .null
  | int64 _ => .int64
  | float64 _ => .float64
  | bytes _ => .bytes

namespace FloatBits

def magnitude (a : UInt64) : UInt64 := a &&& 0x7FFFFFFFFFFFFFFF

def isNaN (a : UInt64) : Bool := 0x7FF0000000000000 < magnitude a

/-- Numeric equality: the two zeros are equal and a NaN equals nothing. -/
def numericEq (a b : UInt64) : Bool :=
  !isNaN a && !isNaN b && (a == b || magnitude a == 0 && magnitude b == 0)

/-- Position in the total order of floats: negative numbers stand below positive ones in reverse
order of their magnitudes, and a NaN lies beyond the infinity of its sign. -/
def rank (a : UInt64) : Int :=
  if a < 0x8000000000000000 then a.toNat else 0x7FFFFFFFFFFFFFFF - (a.toNat : Int)

end FloatBits

def Value.numericEq : Value → Value → Bool
  | float64 a, float64 b => FloatBits.numericEq a b
  | a, b => a = b

end ChunkSort
