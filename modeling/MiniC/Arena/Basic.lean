import MiniC.Arena.Block

namespace MiniC

/-- Chooses the base address of the next block from the blocks there are (the latest first), its
capacity and its alignment. -/
def Placement := List Block → Nat → Nat → Nat

/-- Every block follows the one before it at the next address that is aligned for it. -/
def Placement.packed : Placement := fun blocks _ align =>
  let free := match blocks with
    | [] => leastBlock
    | b :: _ => b.base + b.capacity
  (free + align - 1) / align * align

structure ArenaCounts where
  /-- The bytes handed out, with those skipped to align them. -/
  allocated : Nat
  /-- The capacity of all blocks. -/
  reserved : Nat
  blocks : Nat
  deriving DecidableEq

structure Arena where
  active : Block
  /-- The exhausted blocks, the latest first. -/
  retired : List Block
  counts : ArenaCounts
  granted : Nat
  place : Placement

namespace Arena

def ofCapacity (place : Placement) (capacity : Nat) : Arena where
  active := ⟨place [] capacity blockAlign, capacity, blockAlign, 0⟩
  retired := []
  counts := ⟨0, capacity, 1⟩
  granted := 0
  place := place

/-- As `ofCapacity`, if there can be such a block. -/
def create (place : Placement) (capacity : Nat) : Except Fault Arena :=
  if capacity = 0 then .error .zeroCapacity
  else if sizeLimit < capacity + blockAlign then .error .tooLarge
  else .ok (ofCapacity place capacity)

/-- All blocks, the latest first. -/
def chain (a : Arena) : List Block := a.active :: a.retired

def remaining (a : Arena) : Nat := a.active.remaining

def freshCapacity (size : Nat) : Nat := max size leastBlock

def freshAlign (align : Nat) : Nat := max align blockAlign

/-- Retires the active block for a fresh one. -/
def addBlock (a : Arena) (size align : Nat) : Arena :=
  let capacity := freshCapacity size
  { a with
    active := ⟨a.place a.chain capacity (freshAlign align), capacity, freshAlign align, 0⟩
    retired := a.chain
    counts := { a.counts with
      reserved := a.counts.reserved + capacity
      blocks := a.counts.blocks + 1 } }

/-- Hands out the bytes of the active block from `start` to `stop`, and those skipped before. -/
def take (a : Arena) (start stop : Nat) : Region × Arena :=
  (⟨a.granted, start, stop - start⟩,
    { a with
      active := { a.active with used := stop - a.active.base }
      counts := { a.counts with allocated := a.counts.allocated + (stop - a.active.cursor) }
      granted := a.granted + 1 })

def serve? (a : Arena) (size align : Nat) : Option (Region × Arena) :=
  (a.active.fit? size align).map fun (start, stop) => a.take start stop

/-- Serves a request from the active block or else from a fresh one. -/
def allocate (a : Arena) (r : Request) : Except Fault (Region × Arena) :=
  match r.fault? with
  | some fault => .error fault
  | none =>
    match a.serve? r.size r.align with
    | some granted => .ok granted
    | none =>
      if sizeLimit < freshCapacity r.size + freshAlign r.align then .error .tooLarge
      else
        match (a.addBlock r.size r.align).serve? r.size r.align with
        | some granted => .ok granted
        | none => .error (.misplaced r.size)

/-- As `allocate` for requests that are never refused: aligned and far below the limit on sizes. -/
def reserve (a : Arena) (r : Request) : Region × Arena :=
  match a.serve? r.size r.align with
  | some granted => granted
  | none =>
    let fresh := a.addBlock r.size r.align
    fresh.take fresh.active.base (fresh.active.base + r.size)

def allocateAll (a : Arena) : List Request → Except Fault Arena
  | [] => .ok a
  | r :: rs =>
    match a.allocate r with
    | .ok (_, b) => b.allocateAll rs
    | .error fault => .error fault

def reserveAll (a : Arena) : List Request → Arena
  | [] => a
  | r :: rs => (a.reserve r).2.reserveAll rs

def release (a : Arena) : Nat := a.chain.length

end Arena

end MiniC
