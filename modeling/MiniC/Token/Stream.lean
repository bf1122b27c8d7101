import MiniC.Token.Reader

namespace MiniC

structure TokenStream where
  tokens : List Token
  cursor : Cursor

namespace TokenStream

def ofList (tokens : List Token) : TokenStream := ⟨tokens, .start⟩

def reader (s : TokenStream) : Reader := Reader.ofTokens s.tokens s.cursor

def restore (s : TokenStream) (cursor : Cursor) : TokenStream := { s with cursor }

def peek (s : TokenStream) (n : Nat) : Token := s.reader.peek n

def consume (s : TokenStream) : Token × TokenStream :=
  let (token, r) := s.reader.consume
  (token, s.restore r.cursor)

def line (s : TokenStream) : Nat := s.cursor.line

def nextLine (s : TokenStream) : Nat := s.reader.nextLine

def atEnd (s : TokenStream) : Bool := s.reader.atEnd

end TokenStream

end MiniC
