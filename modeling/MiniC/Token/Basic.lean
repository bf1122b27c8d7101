import MiniC.Decimal.Shortest
import MiniC.Token.Kind

namespace MiniC

/-- What a token carries beside its kind. -/
inductive Payload where
  | none
  | ident (text : String)
  | int (value : Int)
  | float (value : Binary64)
  | char (code : UInt8)
  | str (text : String)
  deriving DecidableEq

namespace Payload

/-- Equality of what is carried; floats are compared as numbers. -/
def same : Payload → Payload → Bool
  | .float x, .float y => x.sameNumber y
  | p, q => p == q

end Payload

structure Token where
  kind : TokenKind
  payload : Payload
  deriving DecidableEq

namespace Token

def plain (kind : TokenKind) : Token := ⟨kind, .none⟩

def ident (text : String) : Token := ⟨.ident, .ident text⟩

def int (value : Int) : Token := ⟨.literalInt, .int value⟩

def float (value : Binary64) : Token := ⟨.literalFloat, .float value⟩

def char (code : UInt8) : Token := ⟨.literalChar, .char code⟩

def str (text : String) : Token := ⟨.literalString, .str text⟩

def newline : Token := plain .newline

/-- What is read after the last token. -/
def eof : Token := plain .eof

instance : Inhabited Token := ⟨eof⟩

/-- The text of an identifier, which is told by what the token carries and not by its kind. -/
def identifier? (token : Token) : Option String :=
  match token.payload with
  | .ident text => some text
  | _ => none

def isSignificant (token : Token) : Bool := token.kind.isSignificant

def same (a b : Token) : Bool := a.kind == b.kind && a.payload.same b.payload

def hexDigit (n : Nat) : Char := Nat.digitChar (n % 16)

/-- A character code between quotes: as it is if it is visible in ASCII or a space, and otherwise by
its number. -/
def quoteCode (code : UInt8) : String :=
  if 0x20 ≤ code ∧ code ≤ 0x7e then
    "'" ++ String.singleton (Char.ofNat code.toNat) ++ "'"
  else
    "'\\x" ++ String.ofList [hexDigit (code.toNat / 16), hexDigit code.toNat] ++ "'"

def describe (token : Token) : String :=
  match token.payload with
  | .none => token.kind.describe
  | .ident text => "identifier '" ++ text ++ "'"
  | .int value => "int literal " ++ toString value
  | .float value => "float literal " ++ value.text
  | .char code => "char literal " ++ quoteCode code
  | .str text => "string literal \"" ++ text ++ "\""

end Token

end MiniC
