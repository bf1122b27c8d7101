import MiniC.Arena.Request

namespace MiniC

/-- The word that gives zero when added to `a`. -/
def negWord (a : Nat) : Nat := (addressSpace - a % addressSpace) % addressSpace

/-- The sum of two words, if it is a word. -/
def addWord? (a b : Nat) : Option Nat := if a + b < addressSpace then some (a + b) else none

/-- A piece of memory that was handed out. `serial` tells apart regions that share an address because
one of them is empty. -/
structure Region where
  serial : Nat
  address : Nat
  size : Nat
  deriving DecidableEq

/-- The first `used` of `capacity` bytes at `base` are handed out. -/
structure Block where
  base : Nat
  capacity : Nat
  align : Nat
  used : Nat
  deriving DecidableEq

namespace Block

def cursor (b : Block) : Nat := b.base + b.used

def remaining (b : Block) : Nat := b.capacity - b.used

/-- How far the next free byte is from an address that is a multiple of `align`, a power of two. -/
def padding (b : Block) (align : Nat) : Nat := negWord b.cursor &&& (align - 1)

def fit? (b : Block) (size align : Nat) : Option (Nat × Nat) := do
  let start ← addWord? b.cursor (b.padding align)
  let stop ← addWord? start size
  if stop ≤ b.base + b.capacity then some (start, stop) else none

end Block

end MiniC
