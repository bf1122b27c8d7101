import MiniC.Token.Kind

namespace MiniC

inductive Construct where
  | ifStatement | forStatement | whileStatement | doStatement | switchStatement | gotoStatement
  | breakStatement | continueStatement | caseLabel | defaultLabel | elseBranch
  | structDecl | unionDecl | enumDecl | typedef
  deriving DecidableEq, Inhabited

namespace Construct

def all : List Construct := [
  .ifStatement, .forStatement, .whileStatement, .doStatement, .switchStatement, .gotoStatement,
  .breakStatement, .continueStatement, .caseLabel, .defaultLabel, .elseBranch,
  .structDecl, .unionDecl, .enumDecl, .typedef]

def name : Construct → String
  | .ifStatement => "If"
  | .forStatement => "For"
  | .whileStatement => "While"
  | .doStatement => "Do"
  | .switchStatement => "Switch"
  | .gotoStatement => "Goto"
  | .breakStatement => "Break"
  | .continueStatement => "Continue"
  | .caseLabel => "Case"
  | .defaultLabel => "Default"
  | .elseBranch => "Else"
  | .structDecl => "Struct"
  | .unionDecl => "Union"
  | .enumDecl => "Enum"
  | .typedef => "Typedef"

def describe : Construct → String
  | .ifStatement => "'if' statement"
  | .forStatement => "'for' statement"
  | .whileStatement => "'while' statement"
  | .doStatement => "'do' statement"
  | .switchStatement => "'switch' statement"
  | .gotoStatement => "'goto' statement"
  | .breakStatement => "'break' statement"
  | .continueStatement => "'continue' statement"
  | .caseLabel => "'case' label"
  | .defaultLabel => "'default' label"
  | .elseBranch => "'else' branch"
  | .structDecl => "struct declaration"
  | .unionDecl => "union declaration"
  | .enumDecl => "enum declaration"
  | .typedef => "typedef"

def ofName? (text : String) : Option Construct := all.find? (·.name == text)

/-- The statement that a keyword introduces. -/
def ofStatement? : TokenKind → Option Construct
  | .kwIf => some .ifStatement
  | .kwFor => some .forStatement
  | .kwWhile => some .whileStatement
  | .kwDo => some .doStatement
  | .kwSwitch => some .switchStatement
  | .kwGoto => some .gotoStatement
  | .kwBreak => some .breakStatement
  | .kwContinue => some .continueStatement
  | .kwCase => some .caseLabel
  | .kwDefault => some .defaultLabel
  | .kwElse => some .elseBranch
  | _ => none

/-- The declaration that a keyword introduces at top level. -/
def ofDeclaration? : TokenKind → Option Construct
  | .kwStruct => some .structDecl
  | .kwUnion => some .unionDecl
  | .kwEnum => some .enumDecl
  | .kwTypedef => some .typedef
  | _ => none

end Construct

end MiniC
