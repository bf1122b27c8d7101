import MiniC.Tree.Draft

namespace MiniC

/-- The nodes are numbered in the order in which they were made. -/
structure Forest where
  arena : Arena
  nodes : Array Draft

namespace Forest

def empty (arena : Arena) : Forest := ⟨arena, #[]⟩

def add (f : Forest) (arena : Arena) (d : Draft) : Except Fault Forest :=
  (arena.allocateAll d.requests).map fun arena => ⟨arena, f.nodes.push d⟩

def alloc (f : Forest) (kind : NodeKind) (line wanted : Nat) : Except Fault Forest :=
  f.add f.arena (.empty kind line wanted)

/-- A leaf; its text is stored before it. -/
def leaf (f : Forest) (kind : NodeKind) (line : Nat) : Option String → Except Fault Forest
  | none => f.add f.arena (.leaf kind line none)
  | some text => do
    let (stored, arena) ← f.arena.store? text
    f.add arena (.leaf kind line (some stored))

/-- Makes node `child` as it is now the last child of node `parent`. -/
def append (f : Forest) (parent child : Nat) : Except Fault Forest :=
  match f.nodes[parent]?, f.nodes[child]? with
  | some p, some c =>
    (f.arena.allocateAll p.growth).map fun arena =>
      ⟨arena, f.nodes.setIfInBounds parent (p.push c.close)⟩
  | _, _ => .ok f

end Forest

end MiniC
