namespace MiniC

inductive TokenKind where
  | kwIf | kwElse | kwDo | kwWhile | kwFor | kwSwitch | kwCase | kwBreak | kwContinue
  | kwDefault | kwReturn | kwGoto | kwTypedef | kwStruct | kwUnion | kwEnum | kwSigned
  | kwUnsigned | kwVoid | kwInt | kwChar | kwLong | kwShort | kwFloat | kwDouble | kwConst
  | kwStatic | kwExtern | kwAuto | kwVolatile | kwRegister | kwRestrict | kwInline | kwSizeof
  | ident | literalInt | literalFloat | literalChar | literalString
  | lParen | rParen | lBrace | rBrace | lBracket | rBracket | semicolon | comma | dot | star
  | plus | minus | slash | percent | amp | pipe | caret | tilde | bang | lt | gt | assign
  | question | colon | plusPlus | minusMinus | arrow | shLeft | shRight | le | ge | eqEq | ne
  | andAnd | orOr | plusEq | minusEq | starEq | slashEq | percentEq | ampEq | pipeEq | caretEq
  | shLeftEq | shRightEq
  | newline | invalid | eof
  deriving DecidableEq, Inhabited

namespace TokenKind

/-- Every kind once, in the order of the declaration. -/
def all : List TokenKind := [
  .kwIf, .kwElse, .kwDo, .kwWhile, .kwFor, .kwSwitch, .kwCase, .kwBreak, .kwContinue,
  .kwDefault, .kwReturn, .kwGoto, .kwTypedef, .kwStruct, .kwUnion, .kwEnum, .kwSigned,
  .kwUnsigned, .kwVoid, .kwInt, .kwChar, .kwLong, .kwShort, .kwFloat, .kwDouble, .kwConst,
  .kwStatic, .kwExtern, .kwAuto, .kwVolatile, .kwRegister, .kwRestrict, .kwInline, .kwSizeof,
  .ident, .literalInt, .literalFloat, .literalChar, .literalString, .lParen, .rParen, .lBrace,
  .rBrace, .lBracket, .rBracket, .semicolon, .comma, .dot, .star, .plus, .minus, .slash,
  .percent, .amp, .pipe, .caret, .tilde, .bang, .lt, .gt, .assign, .question, .colon,
  .plusPlus, .minusMinus, .arrow, .shLeft, .shRight, .le, .ge, .eqEq, .ne, .andAnd, .orOr,
  .plusEq, .minusEq, .starEq, .slashEq, .percentEq, .ampEq, .pipeEq, .caretEq, .shLeftEq,
  .shRightEq, .newline, .invalid, .eof]

/-- The kind's own name, as reports write it. -/
def name : TokenKind → String
  | .kwIf => "If"
  | .kwElse => "Else"
  | .kwDo => "Do"
  | .kwWhile => "While"
  | .kwFor => "For"
  | .kwSwitch => "Switch"
  | .kwCase => "Case"
  | .kwBreak => "Break"
  | .kwContinue => "Continue"
  | .kwDefault => "Default"
  | .kwReturn => "Return"
  | .kwGoto => "Goto"
  | .kwTypedef => "Typedef"
  | .kwStruct => "Struct"
  | .kwUnion => "Union"
  | .kwEnum => "Enum"
  | .kwSigned => "Signed"
  | .kwUnsigned => "Unsigned"
  | .kwVoid => "Void"
  | .kwInt => "Int"
  | .kwChar => "Char"
  | .kwLong => "Long"
  | .kwShort => "Short"
  | .kwFloat => "Float"
  | .kwDouble => "Double"
  | .kwConst => "Const"
  | .kwStatic => "Static"
  | .kwExtern => "Extern"
  | .kwAuto => "Auto"
  | .kwVolatile => "Volatile"
  | .kwRegister => "Register"
  | .kwRestrict => "Restrict"
  | .kwInline => "Inline"
  | .kwSizeof => "Sizeof"
  | .ident => "Ident"
  | .literalInt => "LiteralInt"
  | .literalFloat => "LiteralFloat"
  | .literalChar => "LiteralChar"
  | .literalString => "LiteralString"
  | .lParen => "LParen"
  | .rParen => "RParen"
  | .lBrace => "LBrace"
  | .rBrace => "RBrace"
  | .lBracket => "LBracket"
  | .rBracket => "RBracket"
  | .semicolon => "Semicolon"
  | .comma => "Comma"
  | .dot => "Dot"
  | .star => "Star"
  | .plus => "Plus"
  | .minus => "Minus"
  | .slash => "Slash"
  | .percent => "Percent"
  | .amp => "Amp"
  | .pipe => "Pipe"
  | .caret => "Caret"
  | .tilde => "Tilde"
  | .bang => "Bang"
  | .lt => "Lt"
  | .gt => "Gt"
  | .assign => "Assign"
  | .question => "Question"
  | .colon => "Colon"
  | .plusPlus => "PlusPlus"
  | .minusMinus => "MinusMinus"
  | .arrow => "Arrow"
  | .shLeft => "ShLeft"
  | .shRight => "ShRight"
  | .le => "Le"
  | .ge => "Ge"
  | .eqEq => "EqEq"
  | .ne => "Ne"
  | .andAnd => "AndAnd"
  | .orOr => "OrOr"
  | .plusEq => "PlusEq"
  | .minusEq => "MinusEq"
  | .starEq => "StarEq"
  | .slashEq => "SlashEq"
  | .percentEq => "PercentEq"
  | .ampEq => "AmpEq"
  | .pipeEq => "PipeEq"
  | .caretEq => "CaretEq"
  | .shLeftEq => "ShLeftEq"
  | .shRightEq => "ShRightEq"
  | .newline => "Newline"
  | .invalid => "Invalid"
  | .eof => "Eof"

/-- How a keyword or a piece of punctuation is written; the kinds whose text varies have none. -/
def spelling? : TokenKind → Option String
  | .kwIf => some "if"
  | .kwElse => some "else"
  | .kwDo => some "do"
  | .kwWhile => some "while"
  | .kwFor => some "for"
  | .kwSwitch => some "switch"
  | .kwCase => some "case"
  | .kwBreak => some "break"
  | .kwContinue => some "continue"
  | .kwDefault => some "default"
  | .kwReturn => some "return"
  | .kwGoto => some "goto"
  | .kwTypedef => some "typedef"
  | .kwStruct => some "struct"
  | .kwUnion => some "union"
  | .kwEnum => some "enum"
  | .kwSigned => some "signed"
  | .kwUnsigned => some "unsigned"
  | .kwVoid => some "void"
  | .kwInt => some "int"
  | .kwChar => some "char"
  | .kwLong => some "long"
  | .kwShort => some "short"
  | .kwFloat => some "float"
  | .kwDouble => some "double"
  | .kwConst => some "const"
  | .kwStatic => some "static"
  | .kwExtern => some "extern"
  | .kwAuto => some "auto"
  | .kwVolatile => some "volatile"
  | .kwRegister => some "register"
  | .kwRestrict => some "restrict"
  | .kwInline => some "inline"
  | .kwSizeof => some "sizeof"
  | .lParen => some "("
  | .rParen => some ")"
  | .lBrace => some "\x7b"
  | .rBrace => some "\x7d"
  | .lBracket => some "["
  | .rBracket => some "]"
  | .semicolon => some ";"
  | .comma => some ","
  | .dot => some "."
  | .star => some "*"
  | .plus => some "+"
  | .minus => some "-"
  | .slash => some "/"
  | .percent => some "%"
  | .amp => some "&"
  | .pipe => some "|"
  | .caret => some "^"
  | .tilde => some "~"
  | .bang => some "!"
  | .lt => some "<"
  | .gt => some ">"
  | .assign => some "="
  | .question => some "?"
  | .colon => some ":"
  | .plusPlus => some "++"
  | .minusMinus => some "--"
  | .arrow => some "->"
  | .shLeft => some "<<"
  | .shRight => some ">>"
  | .le => some "<="
  | .ge => some ">="
  | .eqEq => some "=="
  | .ne => some "!="
  | .andAnd => some "&&"
  | .orOr => some "||"
  | .plusEq => some "+="
  | .minusEq => some "-="
  | .starEq => some "*="
  | .slashEq => some "/="
  | .percentEq => some "%="
  | .ampEq => some "&="
  | .pipeEq => some "|="
  | .caretEq => some "^="
  | .shLeftEq => some "<<="
  | .shRightEq => some ">>="
  | .ident | .literalInt | .literalFloat | .literalChar | .literalString
  | .newline | .invalid | .eof => none

/-- A kind in a message: its spelling in quotes, or what it is. -/
def describe (kind : TokenKind) : String :=
  match kind.spelling? with
  | some text => "'" ++ text ++ "'"
  | none =>
    match kind with
    | .ident => "identifier"
    | .literalInt => "int literal"
    | .literalFloat => "float literal"
    | .literalChar => "char literal"
    | .literalString => "string literal"
    | .newline => "newline"
    | .invalid => "invalid token"
    | _ => "end of input"

def ofName? (text : String) : Option TokenKind := all.find? (·.name == text)

def ofSpelling? (text : String) : Option TokenKind := all.find? (·.spelling? == some text)

def isStorage : TokenKind → Bool
  | .kwAuto | .kwRegister | .kwStatic | .kwExtern => true
  | _ => false

def isQualifier : TokenKind → Bool
  | .kwConst | .kwVolatile | .kwRestrict => true
  | _ => false

def isSign : TokenKind → Bool
  | .kwSigned | .kwUnsigned => true
  | _ => false

/-- The types a declaration can be built on; `void` is not one of them. -/
def isBase : TokenKind → Bool
  | .kwInt | .kwChar | .kwLong | .kwShort | .kwFloat | .kwDouble => true
  | _ => false

/-- All but newlines: what a reader of tokens steps on. -/
def isSignificant (kind : TokenKind) : Bool := kind != .newline

end TokenKind

end MiniC
