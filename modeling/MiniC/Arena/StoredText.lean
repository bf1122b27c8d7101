import MiniC.Arena.Basic

namespace MiniC

/-- A text and the region that holds its bytes. -/
structure StoredText where
  text : String
  region : Region
  deriving DecidableEq

namespace Arena

def store (a : Arena) (text : String) : StoredText × Arena :=
  let (region, b) := a.reserve (.text text)
  (⟨text, region⟩, b)

def store? (a : Arena) (text : String) : Except Fault (StoredText × Arena) :=
  match a.allocate (.text text) with
  | .ok (region, b) => .ok (⟨text, region⟩, b)
  | .error fault => .error fault

end Arena

end MiniC
