import MiniC.Parse.Event
import MiniC.Token.Reader
import MiniC.Tree.Draft
import MiniC.Tree.Interner

namespace MiniC

structure State where
  reader : Reader
  /-- How many rules are in progress. -/
  depth : Nat
  arena : Arena
  interner : Interner
  /-- What happened, the latest first. -/
  log : List Event

namespace State

def start (reader : Reader) (arena : Arena) : State := ⟨reader, 0, arena, .empty, []⟩

def left (s : State) : Nat := s.reader.left

def nextKind (s : State) : TokenKind := s.reader.next.kind

def nextLine (s : State) : Nat := s.reader.nextLine

def record (s : State) (e : Event) : State := { s with log := e :: s.log }

/-- Goes on with an arena that has grown out of the present one. -/
def withArena (s : State) (arena : Arena) : State :=
  { s with arena := arena, log := Event.added s.arena arena ++ s.log }

def skip (s : State) : State := { s with reader := s.reader.rest }

/-- A new node on the line of the next token, with room for `wanted` children. -/
def openNode (s : State) (kind : NodeKind) (wanted : Nat) : Draft × State :=
  let d := Draft.empty kind s.nextLine wanted
  (d, s.withArena (s.arena.reserveAll d.requests))

def append (s : State) (d : Draft) (child : Node) : Draft × State :=
  let t := s.withArena (s.arena.reserveAll d.growth)
  (d.push child, t)

def intern (s : State) (text : String) : StoredText × State :=
  let (stored, interner, arena) := s.interner.intern s.arena text
  (stored, { s.withArena arena with interner := interner })

/-- The stored text of a token, if it has one. -/
def internToken (s : State) (token : Token) : Option StoredText × State :=
  match token.identifier? with
  | none => (none, s)
  | some text =>
    let (stored, t) := s.intern text
    (some stored, t)

/-- Reads the next token into a leaf on the token's line. -/
def takeLeaf (s : State) : Node × State :=
  let (text?, t) := s.skip.internToken s.reader.next
  let d := Draft.leaf (.token s.nextKind) t.reader.line text?
  (d.close, t.withArena (t.arena.reserveAll d.requests))

def addLeaf (s : State) (d : Draft) : Draft × State :=
  let (leaf, t) := s.takeLeaf
  t.append d leaf

@[simp] theorem reader_record (s : State) (e : Event) : (s.record e).reader = s.reader := rfl

@[simp] theorem reader_withArena (s : State) (arena : Arena) :
    (s.withArena arena).reader = s.reader := rfl

@[simp] theorem reader_skip (s : State) : s.skip.reader = s.reader.rest := rfl

@[simp] theorem reader_openNode (s : State) (kind : NodeKind) (wanted : Nat) :
    (s.openNode kind wanted).2.reader = s.reader := rfl

@[simp] theorem reader_append (s : State) (d : Draft) (child : Node) :
    (s.append d child).2.reader = s.reader := rfl

@[simp] theorem reader_intern (s : State) (text : String) :
    (s.intern text).2.reader = s.reader := rfl

@[simp] theorem reader_internToken (s : State) (token : Token) :
    (s.internToken token).2.reader = s.reader := by
  unfold internToken
  split <;> rfl

@[simp] theorem reader_takeLeaf (s : State) : s.takeLeaf.2.reader = s.reader.rest := by
  simp [takeLeaf]

@[simp] theorem reader_addLeaf (s : State) (d : Draft) :
    (s.addLeaf d).2.reader = s.reader.rest := by
  simp [addLeaf]

theorem left_skip_lt {s : State} (h : s.nextKind ≠ .eof) : s.skip.left < s.left :=
  Reader.left_rest_lt h

theorem left_addLeaf_lt {s : State} (d : Draft) (h : s.nextKind ≠ .eof) :
    (s.addLeaf d).2.left < s.left := by
  simpa [left] using Reader.left_rest_lt h

end State

end MiniC
