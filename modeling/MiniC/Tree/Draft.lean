import MiniC.Tree.Node

namespace MiniC

/-- The size of the first array of children: none for no children, and otherwise the least power of
two that is at least 2 and has room for them. -/
def slotCount (wanted : Nat) : Nat :=
  if wanted = 0 then 0 else if wanted ≤ 2 then 2 else 1 <<< ((wanted - 1).log2 + 1)

structure Draft where
  kind : NodeKind
  line : Nat
  text? : Option StoredText
  capacity : Nat
  children : Array Node
  deriving Inhabited

namespace Draft

def empty (kind : NodeKind) (line wanted : Nat) : Draft := ⟨kind, line, none, slotCount wanted, #[]⟩

def leaf (kind : NodeKind) (line : Nat) (text? : Option StoredText) : Draft :=
  ⟨kind, line, text?, 0, #[]⟩

/-- What a new node takes: the array of children, if it has one, and then the node. -/
def requests (d : Draft) : List Request :=
  if d.capacity = 0 then [Node.request] else [Node.slotsRequest d.capacity, Node.request]

def isFull (d : Draft) : Bool := d.children.size == d.capacity

def nextCapacity (d : Draft) : Nat :=
  if d.isFull then (if d.capacity = 0 then 2 else 2 * d.capacity) else d.capacity

/-- What the next child takes: a larger array, if the present one is full. -/
def growth (d : Draft) : List Request :=
  if d.isFull then [Node.slotsRequest d.nextCapacity] else []

def push (d : Draft) (child : Node) : Draft :=
  { d with capacity := d.nextCapacity, children := d.children.push child }

def close (d : Draft) : Node := ⟨d.kind, d.line, d.text?, d.capacity, d.children.toList⟩

@[simp] theorem toList_children_push (d : Draft) (child : Node) :
    (d.push child).children.toList = d.children.toList ++ [child] := by
  simp [push]

end Draft

end MiniC
