import MiniC.Parse.Construct
import MiniC.Text.Outline

namespace MiniC

/-- How many rules may be in progress at once. -/
def nestingLimit : Nat := 256

inductive ParseError where
  | unsupported (construct : Construct) (line : Nat)
  /-- Nothing that may stand at top level matches. -/
  | unrecognized (found : TokenKind) (line : Nat)
  | nestingTooDeep (line : Nat)
  deriving DecidableEq, Inhabited

namespace ParseError

def line : ParseError → Nat
  | .unsupported _ line => line
  | .unrecognized _ line => line
  | .nestingTooDeep line => line

def message (e : ParseError) : String :=
  "Parse error at line " ++ toString e.line ++ ": " ++
    match e with
    | .unsupported construct _ => construct.describe ++ " is not supported"
    | .unrecognized found _ =>
      "expected a declaration or definition, found " ++ found.describe
    | .nestingTooDeep _ => "nesting exceeds " ++ toString nestingLimit ++ " levels"

def name : ParseError → String
  | .unsupported _ _ => "Unsupported"
  | .unrecognized _ _ => "Unrecognized"
  | .nestingTooDeep _ => "NestingTooDeep"

def outline (e : ParseError) : Outline :=
  .record e.name <| match e with
    | .unsupported construct line => [("construct", .word construct.name), ("line", .ofNat line)]
    | .unrecognized found line => [("found", .word found.name), ("line", .ofNat line)]
    | .nestingTooDeep line => [("line", .ofNat line)]

end ParseError

end MiniC
