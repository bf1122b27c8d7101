namespace MiniC

/-- Addresses and sizes are words of 64 bits. -/
def addressSpace : Nat := 1 <<< 64

/-- No block and no array is larger than half of the address space. -/
def sizeLimit : Nat := 1 <<< 63

/-- The least size of a block that is chained when the active one is exhausted. -/
def leastBlock : Nat := 1 <<< 20

/-- The alignment of every block, and the largest one chosen by default. -/
def blockAlign : Nat := 16

/-- The alignment of a request that names none: its size, but at most `blockAlign`, rounded down to
a power of two. -/
def naturalAlign (size : Nat) : Nat := 1 <<< (min size blockAlign).log2

def isPowerOfTwo (n : Nat) : Bool := 1 <<< n.log2 == n

/-- How an element of an array is laid out; the next one follows without a gap. -/
structure Layout where
  width : Nat
  align : Nat
  isPowerOfTwo_align : isPowerOfTwo align
  align_dvd_width : align ∣ width
  deriving DecidableEq

def Layout.number (k : Nat) : Layout where
  width := 1 <<< k
  align := 1 <<< k
  isPowerOfTwo_align := by simp [isPowerOfTwo, Nat.one_shiftLeft, Nat.log2_two_pow]
  align_dvd_width := Nat.dvd_refl _

inductive Fault where
  | zeroCapacity
  | alignment
  | shrinking
  /-- An array or a block would exceed the limit on sizes. -/
  | tooLarge
  /-- A fresh block does not hold the request for which it was chained. -/
  | misplaced (size : Nat)
  deriving DecidableEq

def Fault.message : Fault → String
  | .zeroCapacity => "arena capacity must be non-zero"
  | .alignment => "alignment must be a power of two"
  | .shrinking => "arena slices only grow"
  | .tooLarge => "arena allocation size overflows isize"
  | .misplaced size =>
    "internal error: entered unreachable code: fresh arena block cannot hold " ++ toString size
      ++ " bytes"

inductive Request where
  | bytes (size align : Nat)
  | array (length width align : Nat)
  deriving DecidableEq

namespace Request

def size : Request → Nat
  | .bytes size _ => size
  | .array length width _ => length * width

def align : Request → Nat
  | .bytes _ align => align
  | .array _ _ align => align

def sized (size : Nat) : Request := .bytes size (naturalAlign size)

/-- The bytes of a text, which may stand anywhere. -/
def text (s : String) : Request := .bytes s.utf8ByteSize 1

/-- What is wrong with a request whatever the state of the arena: the size of an array is checked
before anything else. -/
def fault? : Request → Option Fault
  | .bytes _ align => if isPowerOfTwo align then none else some .alignment
  | .array length width align =>
    if sizeLimit < length * width + align then some .tooLarge
    else if isPowerOfTwo align then none
    else some .alignment

end Request

end MiniC
