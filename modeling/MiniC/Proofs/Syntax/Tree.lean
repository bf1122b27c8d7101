import MiniC.Proofs.Syntax.Grammar
import MiniC.Token.Basic
import MiniC.Tree.Node
import Mathlib.Data.List.Forall2

namespace MiniC

/-- A tree without lines, capacities and places in the arena. -/
structure Shape where
  kind : NodeKind
  text? : Option String
  children : List Shape

namespace Node

mutual

def shape : Node → Shape
  | ⟨kind, _, text?, _, children⟩ => ⟨kind, text?.map (·.text), shapes children⟩

def shapes : List Node → List Shape
  | [] => []
  | n :: ns => n.shape :: shapes ns

end

theorem shapes_eq_map (ns : List Node) : shapes ns = ns.map shape := by
  induction ns with
  | nil => rfl
  | cons n ns ih => simp [shapes, ih]

theorem shape_eq (n : Node) : n.shape = ⟨n.kind, n.spelling?, n.children.map shape⟩ := by
  cases n
  rw [shape, shapes_eq_map]
  rfl

end Node

namespace Syntax

open Grammar

/-- What a tree keeps of a token. -/
structure Leaf where
  kind : TokenKind
  text? : Option String
  deriving DecidableEq

def Leaf.ofToken (t : Token) : Leaf := ⟨t.kind, t.identifier?⟩

def Leaf.shape (l : Leaf) : Shape := ⟨.token l.kind, l.text?, []⟩

/-- A piece of text: a mark, which no tree keeps, or a leaf. -/
inductive Sign where
  | mark (kind : TokenKind)
  | leaf (l : Leaf)
  deriving DecidableEq

def Sign.kind : Sign → TokenKind
  | .mark kind => kind
  | .leaf l => l.kind

/-- The token is one of those that the sign may stand for. -/
def Sign.Matches : Sign → Token → Prop
  | .mark kind, t => t.kind = kind
  | .leaf l, t => Leaf.ofToken t = l

/-- The tokens are what the signs stand for, one by one. -/
def Written (signs : List Sign) (tokens : List Token) : Prop :=
  List.Forall₂ Sign.Matches signs tokens

/-- A row of leaves that is a type. -/
structure TypeName where
  leaves : List Leaf
  isType : IsType (leaves.map Leaf.kind)

/-- A type and an identifier. An identifier's token may come without a text. -/
structure Variable where
  type : TypeName
  name? : Option String

structure Signature where
  head : Variable
  parameters : List Variable

/-- The operands of an expression, in a row. -/
inductive Expression where
  | nil
  | leaf (l : Leaf) (rest : Expression)
  | cast (type : TypeName) (rest : Expression)
  | group (inner rest : Expression)

inductive Statement where
  | compound (body : List Statement)
  /-- The text is that of the keyword's token. -/
  | ret (text? : Option String) (value : Expression)
  | expression (e : Expression)

inductive Local where
  | definition (v : Variable)
  | statement (s : Statement)

inductive Item where
  | declaration (v : Variable)
  | definition (v : Variable)
  | prototype (g : Signature)
  | function (g : Signature) (body : List Local)

abbrev TranslationUnit := List Item

namespace TypeName

def shapes (ty : TypeName) : List Shape := ty.leaves.map Leaf.shape

def print (ty : TypeName) : List Sign := ty.leaves.map .leaf

end TypeName

namespace Variable

def name (v : Variable) : Leaf := ⟨.ident, v.name?⟩

def shapes (v : Variable) : List Shape := [⟨.type, none, v.type.shapes⟩, v.name.shape]

def print (v : Variable) : List Sign := v.type.print ++ [.leaf v.name]

def printFurther (vs : List Variable) : List Sign :=
  vs.flatMap fun v => .mark .comma :: v.print

def printAll : List Variable → List Sign
  | [] => []
  | v :: vs => v.print ++ printFurther vs

end Variable

namespace Signature

def shapes (g : Signature) : List Shape :=
  g.head.shapes ++ [⟨.paramList, none, g.parameters.flatMap Variable.shapes⟩]

def print (g : Signature) : List Sign :=
  g.head.print ++ .mark .lParen :: (Variable.printAll g.parameters ++ [.mark .rParen])

end Signature

namespace Expression

def shapes : Expression → List Shape
  | nil => []
  | leaf l rest => l.shape :: rest.shapes
  | cast ty rest => ⟨.cast, none, ty.shapes⟩ :: rest.shapes
  | group inner rest => ⟨.expression, none, inner.shapes⟩ :: rest.shapes

def shape (e : Expression) : Shape := ⟨.expression, none, e.shapes⟩

def print : Expression → List Sign
  | nil => []
  | leaf l rest => .leaf l :: rest.print
  | cast ty rest => .mark .lParen :: (ty.print ++ .mark .rParen :: rest.print)
  | group inner rest => .mark .lParen :: (inner.print ++ .mark .rParen :: rest.print)

def ofLeaves : List Leaf → Expression
  | [] => nil
  | l :: ls => leaf l (ofLeaves ls)

end Expression

namespace Statement

mutual

def shape : Statement → Shape
  | compound body => ⟨.statement, none, shapeAll body⟩
  | ret text? value => ⟨.statement, none, [Leaf.shape ⟨.kwReturn, text?⟩, value.shape]⟩
  | expression e => ⟨.statement, none, [e.shape]⟩

def shapeAll : List Statement → List Shape
  | [] => []
  | s :: ss => s.shape :: shapeAll ss

end

mutual

def print : Statement → List Sign
  | compound body => .mark .lBrace :: (printAll body ++ [.mark .rBrace])
  | ret text? value => .leaf ⟨.kwReturn, text?⟩ :: (value.print ++ [.mark .semicolon])
  | expression e => e.print ++ [.mark .semicolon]

def printAll : List Statement → List Sign
  | [] => []
  | s :: ss => s.print ++ printAll ss

end

theorem shapeAll_eq_map (ss : List Statement) : shapeAll ss = ss.map shape := by
  induction ss with
  | nil => rfl
  | cons s ss ih => simp [shapeAll, ih]

theorem printAll_eq_flatMap (ss : List Statement) : printAll ss = ss.flatMap print := by
  induction ss with
  | nil => rfl
  | cons s ss ih => simp [printAll, ih]

end Statement

namespace Local

def shape : Local → Shape
  | definition v => ⟨.varDef, none, v.shapes⟩
  | statement s => s.shape

def print : Local → List Sign
  | definition v => v.print ++ [.mark .semicolon]
  | statement s => s.print

end Local

namespace Item

def shape : Item → Shape
  | declaration v => ⟨.varDecl, none, v.shapes⟩
  | definition v => ⟨.varDef, none, v.shapes⟩
  | prototype g => ⟨.funcDecl, none, g.shapes⟩
  | function g body => ⟨.funcDef, none, g.shapes ++ [⟨.statementList, none, body.map Local.shape⟩]⟩

def print : Item → List Sign
  | declaration v => .mark .kwExtern :: (v.print ++ [.mark .semicolon])
  | definition v => v.print ++ [.mark .semicolon]
  | prototype g => g.print ++ [.mark .semicolon]
  | function g body => g.print ++ .mark .lBrace :: (body.flatMap Local.print ++ [.mark .rBrace])

end Item

namespace TranslationUnit

def shape (u : TranslationUnit) : Shape := ⟨.translationUnit, none, u.map Item.shape⟩

def print (u : TranslationUnit) : List Sign := u.flatMap Item.print

end TranslationUnit

end Syntax

end MiniC
