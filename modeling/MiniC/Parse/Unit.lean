import MiniC.Parse.Function
import MiniC.Token.Stream

namespace MiniC

namespace Parser

/-- What may stand at top level. The alternatives are tried in this order, and the first that matches
is taken. -/
def topLevel (limit : Option Nat) : Parser Node :=
  (variableDeclaration limit).orElse <|
    (variableDefinition limit).orElse <|
      (functionDeclaration limit).orElse <|
        (functionDefinition limit).orElse refusedDeclaration

theorem consumes_topLevel (limit : Option Nat) : Consumes (topLevel limit) :=
  (consumes_variableDeclaration limit).orElse <|
    (consumes_variableDefinition limit).orElse <|
      (consumes_functionDeclaration limit).orElse <|
        (consumes_functionDefinition limit).orElse consumes_refusedDeclaration

/-- Gives up since nothing matches the next token. -/
def rejectUnit {α : Type} : Parser α := fun s =>
  let e := ParseError.unrecognized s.nextKind s.nextLine
  ⟨.fatal e, s.record (.unitRejected e)⟩

theorem consumes_rejectUnit {α : Type} : Consumes (rejectUnit : Parser α) :=
  fun _ => Result.consumed_fatal _ (Nat.le_refl _)

/-- The items up to the end of the input, behind those that are in the node already. -/
def unitItems (limit : Option Nat) (root : Draft) (s : State) : Result Draft :=
  if s.nextKind = .eof then
    ⟨.matched root, s⟩
  else
    match _h : topLevel limit s with
    | ⟨.matched item, t⟩ =>
      let pushed := t.append root item
      unitItems limit pushed.1 pushed.2
    | ⟨.mismatch, t⟩ => rejectUnit t
    | ⟨.fatal e, t⟩ => ⟨.fatal e, t⟩
termination_by s.left
decreasing_by
  have : t.left < s.left := (consumes_topLevel limit).lt _h
  exact this

theorem unitItems_eq (limit : Option Nat) (root : Draft) (s : State) :
    unitItems limit root s =
      if s.nextKind = .eof then ⟨.matched root, s⟩
      else (((topLevel limit).orElse rejectUnit >>= fun item => append root item) >>=
        unitItems limit) s := by
  rw [unitItems]
  split
  · rfl
  · simp only [bind_apply, orElse]
    split
    · next h => simp [h, append, step]
    · next h => simp [h, rejectUnit]
    · next h => simp [h]

/-- A whole translation unit. -/
def translationUnit (limit : Option Nat) : Parser Node := do
  let root ← openNode .translationUnit 4
  let root ← unitItems limit root
  record fun s => .unitParsed root.children.size s.reader.line
  return root.close

end Parser

def parse (tokens : List Token) (arena : Arena) : Result Node :=
  Parser.translationUnit (some nestingLimit) (.start (Reader.ofTokens tokens .start) arena)

end MiniC
