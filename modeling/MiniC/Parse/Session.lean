import MiniC.Parse.Unit

namespace MiniC

structure Session where
  stream : TokenStream
  arena : Arena
  saved : Array Cursor
  log : List Event

namespace Session

def start (tokens : List Token) (arena : Arena) : Session := ⟨.ofList tokens, arena, #[], []⟩

def consume (s : Session) : Token × Session :=
  let (token, stream) := s.stream.consume
  (token, { s with stream := stream })

def save (s : Session) : Session := { s with saved := s.saved.push s.stream.cursor }

/-- Puts the cursor anywhere, even beyond the tokens. -/
def restore (s : Session) (cursor : Cursor) : Session :=
  { s with stream := s.stream.restore cursor }

/-- A parser that starts where the stream stands. -/
def parser (s : Session) : State := { State.start s.stream.reader s.arena with log := s.log }

/-- Takes the stream back from a parser. -/
def resume (s : Session) (t : State) : Session :=
  { s with stream := s.stream.restore t.reader.cursor, arena := t.arena, log := t.log }

/-- Parses `count` units one after the other, each from where the one before ended, also after an
error. -/
def units : Nat → State → List (Result Node)
  | 0, _ => []
  | count + 1, s =>
    let r := Parser.translationUnit (some nestingLimit) s
    r :: units count r.final

@[simp] theorem length_units (count : Nat) (s : State) : (units count s).length = count := by
  induction count generalizing s with
  | zero => rfl
  | succ count ih => exact congrArg (· + 1) (ih _)

def parse (s : Session) (count : Nat) : List (Result Node) × Session :=
  let results := units count s.parser
  let last := match results.getLast? with
    | some r => r.final
    | none => s.parser
  (results, s.resume last)

end Session

end MiniC
