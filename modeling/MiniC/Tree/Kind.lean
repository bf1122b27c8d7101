import MiniC.Text.Outline
import MiniC.Token.Kind

namespace MiniC

inductive NodeKind where
  | token (kind : TokenKind)
  | translationUnit | type | cast | varDecl | varDef | funcDecl | funcDef
  | structDecl | structDef | unionDecl | unionDef | enumDecl | enumDef | typedef
  | paramList | statement | statementList | expression
  deriving DecidableEq, Inhabited

namespace NodeKind

def structural : List NodeKind := [
  .translationUnit, .type, .cast, .varDecl, .varDef, .funcDecl, .funcDef,
  .structDecl, .structDef, .unionDecl, .unionDef, .enumDecl, .enumDef, .typedef,
  .paramList, .statement, .statementList, .expression]

def isLeaf : NodeKind → Bool
  | .token _ => true
  | _ => false

/-- The kind's own name, as reports write it. -/
def outline : NodeKind → Outline
  | .token kind => .call "Token" [.word kind.name]
  | .translationUnit => .word "TranslationUnit"
  | .type => .word "Type"
  | .cast => .word "Cast"
  | .varDecl => .word "VarDecl"
  | .varDef => .word "VarDef"
  | .funcDecl => .word "FuncDecl"
  | .funcDef => .word "FuncDef"
  | .structDecl => .word "StructDecl"
  | .structDef => .word "StructDef"
  | .unionDecl => .word "UnionDecl"
  | .unionDef => .word "UnionDef"
  | .enumDecl => .word "EnumDecl"
  | .enumDef => .word "EnumDef"
  | .typedef => .word "Typedef"
  | .paramList => .word "ParamList"
  | .statement => .word "Statement"
  | .statementList => .word "StatementList"
  | .expression => .word "Expression"

def name (kind : NodeKind) : String := kind.outline.inline

def describe : NodeKind → String
  | .token kind => kind.describe
  | .translationUnit => "translation unit"
  | .type => "type"
  | .cast => "cast"
  | .varDecl => "variable declaration"
  | .varDef => "variable definition"
  | .funcDecl => "function declaration"
  | .funcDef => "function definition"
  | .structDecl => "struct declaration"
  | .structDef => "struct definition"
  | .unionDecl => "union declaration"
  | .unionDef => "union definition"
  | .enumDecl => "enum declaration"
  | .enumDef => "enum definition"
  | .typedef => "typedef"
  | .paramList => "parameter list"
  | .statement => "statement"
  | .statementList => "statement list"
  | .expression => "expression"

def structuralOfName? (text : String) : Option NodeKind := structural.find? (·.name == text)

end NodeKind

end MiniC
