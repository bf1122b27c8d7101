import MiniC.Arena.Basic
import MiniC.Parse.Error

namespace MiniC

/-- The rules of the grammar that can be tried and taken back. -/
inductive Rule where
  | type | variableDeclaration | variableDefinition | parameterList | functionDeclaration
  | functionDefinition | functionBody | statement | expression | cast
  deriving DecidableEq, Inhabited

def Rule.name : Rule → String
  | .type => "type"
  | .variableDeclaration => "variable declaration"
  | .variableDefinition => "variable definition"
  | .parameterList => "parameter list"
  | .functionDeclaration => "function declaration"
  | .functionDefinition => "function definition"
  | .functionBody => "function body"
  | .statement => "statement"
  | .expression => "expression"
  | .cast => "cast"

inductive Event where
  /-- A rule is tried with `depth` others in progress. -/
  | entered (rule : Rule) (depth line : Nat)
  /-- A rule did not match, and the reader went back to where `line` had been read last. -/
  | backtracked (rule : Rule) (line : Nat)
  | limitReached (rule : Rule) (line : Nat)
  | duplicateQualifier (found : TokenKind) (line : Nat)
  | unsupported (construct : Construct) (line : Nat)
  | unitParsed (declarations lines : Nat)
  | unitRejected (error : ParseError)
  | blockAdded (blocks capacity : Nat)
  | arenaReleased (allocated blocks reserved : Nat)
  deriving DecidableEq, Inhabited

inductive Level where
  | trace | debug
  deriving DecidableEq

def Level.name : Level → String
  | .trace => "TRACE"
  | .debug => "DEBUG"

inductive Field where
  | number (n : Nat)
  | text (s : String)
  deriving DecidableEq

structure Record where
  level : Level
  message : String
  fields : List (String × Field)
  deriving DecidableEq

namespace Event

/-- The line about an event. That a rule is tried is not reported. -/
def record? : Event → Option Record
  | .entered _ _ _ => none
  | .backtracked rule line =>
    some ⟨.trace, "backtrack", [("line", .number line), ("production", .text rule.name)]⟩
  | .limitReached rule line =>
    some ⟨.debug, "nesting limit reached",
      [("line", .number line), ("production", .text rule.name)]⟩
  | .duplicateQualifier found line =>
    some ⟨.debug, "duplicate type qualifier, type rejected",
      [("found", .text found.describe), ("line", .number line)]⟩
  | .unsupported construct line =>
    some ⟨.debug, "unsupported construct",
      [("construct", .text construct.describe), ("line", .number line)]⟩
  | .unitParsed declarations lines =>
    some ⟨.debug, "translation unit parsed",
      [("declarations", .number declarations), ("lines", .number lines)]⟩
  | .unitRejected error =>
    some ⟨.debug, "translation unit rejected", [("error", .text error.message)]⟩
  | .blockAdded blocks capacity =>
    some ⟨.trace, "arena block chained",
      [("blocks", .number blocks), ("capacity", .number capacity)]⟩
  | .arenaReleased allocated blocks reserved =>
    some ⟨.debug, "arena released",
      [("allocated", .number allocated), ("blocks", .number blocks),
        ("reserved", .number reserved)]⟩

def ofBlocks (count : Nat) : List Block → List Event
  | [] => []
  | b :: bs => .blockAdded count b.capacity :: ofBlocks (count - 1) bs

/-- The blocks that an arena got since it was `before`, the latest first. -/
def added (before after : Arena) : List Event :=
  ofBlocks after.counts.blocks (after.chain.take (after.counts.blocks - before.counts.blocks))

def released (a : Arena) : Event :=
  .arenaReleased a.counts.allocated a.release a.counts.reserved

end Event

end MiniC
