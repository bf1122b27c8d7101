import MiniC.Arena.StoredText
import MiniC.Tree.Kind

namespace MiniC

/-- A finished node. `capacity` is the size of the array in the arena that holds the children. -/
structure Node where
  kind : NodeKind
  line : Nat
  text? : Option StoredText
  capacity : Nat
  children : List Node
  deriving Inhabited

structure NodeRow where
  depth : Nat
  kind : NodeKind
  line : Nat
  text? : Option String
  count : Nat
  capacity : Nat
  deriving DecidableEq

namespace Node

/-- What a node takes in an arena. -/
def request : Request := .bytes 48 8

/-- What an array of children takes. -/
def slotsRequest (capacity : Nat) : Request := .array capacity 8 8

def spelling? (n : Node) : Option String := n.text?.map (·.text)

def isIdent (n : Node) : Bool := n.kind == .token .ident

def child? (n : Node) (i : Nat) : Option Node := n.children[i]?

def childKinds (n : Node) : List NodeKind := n.children.map (·.kind)

mutual

/-- The rows of the tree behind `rows`; its root is `depth` levels down. -/
def rowsOnto (depth : Nat) (rows : Array NodeRow) : Node → Array NodeRow
  | ⟨kind, line, text?, capacity, children⟩ =>
    let row := ⟨depth, kind, line, text?.map (·.text), children.length, capacity⟩
    rowsOfAll (depth + 1) (rows.push row) children

def rowsOfAll (depth : Nat) (rows : Array NodeRow) : List Node → Array NodeRow
  | [] => rows
  | n :: ns => rowsOfAll depth (n.rowsOnto depth rows) ns

end

def rows (n : Node) : Array NodeRow := n.rowsOnto 0 #[]

mutual

/-- The tree with the fields that a node has: the text only if there is one, and the children only if
there are any. -/
def outline : Node → Outline
  | ⟨kind, line, text?, _, children⟩ =>
    let text := match text? with
      | none => []
      | some stored => [("text", Outline.ofString stored.text)]
    let inner := match children with
      | [] => []
      | n :: ns => [("children", Outline.list (n.outline :: outlines ns))]
    .record "Node" ([("kind", kind.outline), ("line", .ofNat line)] ++ text ++ inner)

def outlines : List Node → List Outline
  | [] => []
  | n :: ns => n.outline :: outlines ns

end

end Node

end MiniC
