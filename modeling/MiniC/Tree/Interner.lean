import MiniC.Arena.StoredText
import Std.Data.TreeMap

namespace MiniC

structure Interner where
  texts : Std.TreeMap String StoredText

namespace Interner

def empty : Interner := ⟨∅⟩

def size (i : Interner) : Nat := i.texts.size

def isEmpty (i : Interner) : Bool := i.texts.isEmpty

/-- The stored text of a spelling, which is stored now unless it was before. -/
def intern (i : Interner) (arena : Arena) (text : String) : StoredText × Interner × Arena :=
  match i.texts[text]? with
  | some stored => (stored, i, arena)
  | none =>
    let (stored, arena) := arena.store text
    (stored, ⟨i.texts.insert text stored⟩, arena)

end Interner

end MiniC
