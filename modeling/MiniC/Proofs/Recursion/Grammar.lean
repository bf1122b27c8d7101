import MiniC.Proofs.Recursion.Plan

namespace MiniC

/-- How a turn of a loop ends if it does not fail: the loop starts again, or it is finished. -/
inductive Turn where
  | again (d : Draft)
  | finished (d : Draft)

namespace Scheme

open MiniC.Parser (mismatch openNode append nextKind nextLine record nodeOf noQualifier refuseConstruct
  rejectUnit step)

def read : Scheme Unit := call .read

def production (p : Production) : Scheme Node := call (.production p)

def loop (l : Loop) (d : Draft) : Scheme Draft := call (.loop l d)

/-- A leaf of a token, made where the token has been read. -/
def makeLeaf (token : Token) (s : State) : Node × State :=
  let (text?, t) := s.internToken token
  let d := Draft.leaf (.token token.kind) t.reader.line text?
  (d.close, t.withArena (t.arena.reserveAll d.requests))

def leaf : Scheme Node := do
  let token ← of (step fun s => (s.reader.next, s))
  read
  of (step (makeLeaf token))

def addLeaf (d : Draft) : Scheme Draft := do
  let leaf ← leaf
  of (append d leaf)

def expect (kind : TokenKind) : Scheme Unit := do
  let next ← of nextKind
  if next = kind then read else of mismatch

def requiredLeaf (property : TokenKind → Bool) (d : Draft) : Scheme Draft := do
  let next ← of nextKind
  if property next then addLeaf d else of mismatch

def optionalLeaf (property : TokenKind → Bool) (d : Draft) : Scheme Draft := do
  let next ← of nextKind
  if property next then addLeaf d else return d

def innerQualifier (qualified : Bool) (ty : Draft) : Scheme Draft :=
  if qualified then do
    of noQualifier
    return ty
  else
    optionalLeaf TokenKind.isQualifier ty

def outerQualifier (ty : Draft) : Scheme Draft := do
  let next ← of nextKind
  if next.isQualifier then
    let ty ← requiredLeaf TokenKind.isQualifier ty
    of noQualifier
    return ty
  else
    return ty

def pointer (ty : Draft) : Scheme Draft := do
  let next ← of nextKind
  if next = .star then
    let ty ← loop .stars ty
    outerQualifier ty
  else
    return ty

def typeParts (ty : Draft) : Scheme Draft := do
  let ty ← optionalLeaf TokenKind.isStorage ty
  let kind ← of nextKind
  let ty ← optionalLeaf TokenKind.isQualifier ty
  let ty ← optionalLeaf TokenKind.isSign ty
  let ty ← requiredLeaf TokenKind.isBase ty
  let ty ← innerQualifier kind.isQualifier ty
  pointer ty

def parameter (list : Draft) : Scheme Draft := do
  let ty ← production (.ofRule .type)
  let name ← production .identifier
  let list ← of (append list ty)
  of (append list name)

def signature : Scheme (List Node) := do
  let ty ← production (.ofRule .type)
  let name ← production .identifier
  expect .lParen
  let list ← production (.ofRule .parameterList)
  expect .rParen
  return [ty, name, list]

def someParameters (list : Draft) : Scheme Draft := do
  let next ← of nextKind
  if next = .rParen then return list else loop .parameters list

def group : Scheme Node := do
  let inner ← production (.ofRule .expression)
  expect .rParen
  return inner

def simpleStatement (d : Draft) : Scheme Draft := do
  let next ← of nextKind
  match Construct.ofStatement? next with
  | some construct => of (refuseConstruct construct)
  | none =>
    let d ← optionalLeaf (· == .kwReturn) d
    let e ← production (.ofRule .expression)
    expect .semicolon
    of (append d e)

def statementParts (d : Draft) : Scheme Draft := do
  let next ← of nextKind
  if next = .lBrace then
    read
    loop .compound d
  else
    simpleStatement d

def bodyItem : Scheme Node :=
  (production (.ofRule .variableDefinition)).orElse (production (.ofRule .statement))

def topLevel : Scheme Node :=
  (production (.ofRule .variableDeclaration)).orElse <|
    (production (.ofRule .variableDefinition)).orElse <|
      (production (.ofRule .functionDeclaration)).orElse <|
        (production (.ofRule .functionDefinition)).orElse (production .refusedDeclaration)

def startAgain (d : Draft) (child : Node) : Scheme Turn := do
  let d ← of (append d child)
  return .again d

end Scheme

open Scheme

open MiniC.Parser (mismatch openNode append nextKind nextLine record nodeOf rejectUnit)

def Loop.turn : Loop → Draft → Scheme Turn
  | unitItems, root => do
    let next ← of nextKind
    if next = .eof then
      return .finished root
    else
      topLevel.orElse (of rejectUnit) >>= startAgain root
  | bodyItems, body => do
    let next ← of nextKind
    if next = .rBrace then
      return .finished body
    else
      bodyItem >>= startAgain body
  | compound, d => do
    let next ← of nextKind
    if next = .rBrace then
      read
      return .finished d
    else
      production (.ofRule .statement) >>= startAgain d
  | parameters, list => do
    let list ← parameter list
    let next ← of nextKind
    if next = .rParen then
      return .finished list
    else if next = .comma then
      read
      return .again list
    else
      of mismatch
  | stars, ty => do
    let next ← of nextKind
    if next = .star then
      let ty ← addLeaf ty
      return .again ty
    else
      return .finished ty
  | operands, d => do
    let next ← of nextKind
    match next.expressionPart with
    | .close => return .finished d
    | .stray => of mismatch
    | .operand =>
      let d ← addLeaf d
      return .again d
    | .group =>
      read
      (production (.ofRule .cast)).orElse group >>= startAgain d

def Loop.follow (l : Loop) : Turn → Scheme Draft
  | .again d => Scheme.loop l d
  | .finished d => pure d

/-- The loop, turn by turn. -/
def Loop.plan (l : Loop) (d : Draft) : Scheme Draft := l.turn d >>= l.follow

def Production.plan (limit : Option Nat) : Production → Scheme Node
  | ofRule .type => tryRule limit .type do
    let ty ← of (openNode .type 4)
    let ty ← typeParts ty
    return ty.close
  | ofRule .variableDeclaration => tryRule limit .variableDeclaration do
    let line ← of nextLine
    expect .kwExtern
    let ty ← production (.ofRule .type)
    let name ← production .identifier
    expect .semicolon
    of (nodeOf .varDecl line [ty, name])
  | ofRule .variableDefinition => tryRule limit .variableDefinition do
    let line ← of nextLine
    let ty ← production (.ofRule .type)
    let name ← production .identifier
    expect .semicolon
    of (nodeOf .varDef line [ty, name])
  | ofRule .parameterList => tryRule limit .parameterList do
    let list ← of (openNode .paramList 4)
    let list ← someParameters list
    return list.close
  | ofRule .functionDeclaration => tryRule limit .functionDeclaration do
    let line ← of nextLine
    let parts ← signature
    expect .semicolon
    of (nodeOf .funcDecl line parts)
  | ofRule .functionDefinition => tryRule limit .functionDefinition do
    let line ← of nextLine
    let parts ← signature
    expect .lBrace
    let body ← production (.ofRule .functionBody)
    expect .rBrace
    of (nodeOf .funcDef line (parts ++ [body]))
  | ofRule .functionBody => tryRule limit .functionBody do
    let body ← of (openNode .statementList 4)
    let body ← Scheme.loop .bodyItems body
    return body.close
  | ofRule .statement => tryRule limit .statement do
    let d ← of (openNode .statement 2)
    let d ← statementParts d
    return d.close
  | ofRule .expression => tryRule limit .expression do
    let d ← of (openNode .expression 4)
    let d ← Scheme.loop .operands d
    return d.close
  | ofRule .cast => tryRule limit .cast do
    let ty ← production (.ofRule .type)
    expect .rParen
    return ty.toCast
  | identifier => do
    let next ← of nextKind
    if next = .ident then leaf else of mismatch
  | refusedDeclaration => of Parser.refusedDeclaration

/-- What is done for a task, up to the calls that it makes. -/
def Task.plan (limit : Option Nat) : (c : Task) → Scheme c.Value
  | unit => do
    let root ← of (openNode .translationUnit 4)
    let root ← Scheme.loop .unitItems root
    of (record fun s => .unitParsed root.children.size s.reader.line)
    return root.close
  | production p => p.plan limit
  | loop l d => l.plan d
  | read => of (Task.read.parser limit)

instance : LawfulMonad Parser := LawfulMonad.mk' Parser
  (fun p => by
    funext s
    rcases h : p s with ⟨_ | _ | _, t⟩ <;> simp [Functor.map, h])
  (fun a f => rfl)
  (fun p f g => by
    funext s
    rw [Parser.bind_apply, Parser.bind_apply, Parser.bind_apply]
    rcases p s with ⟨_ | _ | _, t⟩ <;> rfl)

namespace Scheme

variable {limit : Option Nat}

theorem parser_look {α : Type} (f : TokenKind → Scheme α) (s : State) :
    (of nextKind >>= f).parser limit s = (f s.nextKind).parser limit s := rfl

@[simp] theorem parser_read : read.parser limit = Task.read.parser limit := rfl

@[simp] theorem parser_production (p : Production) :
    (production p).parser limit = p.parser limit := rfl

@[simp] theorem parser_loop (l : Loop) (d : Draft) :
    (Scheme.loop l d).parser limit = l.parser limit d := rfl

@[simp] theorem parser_addLeaf (d : Draft) :
    (addLeaf d).parser limit = Parser.step (·.addLeaf d) := rfl

@[simp] theorem parser_expect (kind : TokenKind) :
    (expect kind).parser limit = Parser.expect kind := by
  funext s
  rw [expect, parser_look]
  unfold Parser.expect
  split <;> rfl

@[simp] theorem parser_requiredLeaf (property : TokenKind → Bool) (d : Draft) :
    (requiredLeaf property d).parser limit = Parser.requiredLeaf property d := by
  funext s
  rw [requiredLeaf, parser_look]
  unfold Parser.requiredLeaf
  split <;> rfl

@[simp] theorem parser_optionalLeaf (property : TokenKind → Bool) (d : Draft) :
    (optionalLeaf property d).parser limit = Parser.optionalLeaf property d := by
  funext s
  rw [optionalLeaf, parser_look]
  unfold Parser.optionalLeaf
  split <;> rfl

@[simp] theorem parser_innerQualifier (qualified : Bool) (ty : Draft) :
    (innerQualifier qualified ty).parser limit = Parser.innerQualifier qualified ty := by
  simp [innerQualifier, Parser.innerQualifier]

@[simp] theorem parser_outerQualifier (ty : Draft) :
    (outerQualifier ty).parser limit = Parser.outerQualifier ty := by
  funext s
  rw [outerQualifier, parser_look]
  unfold Parser.outerQualifier
  split <;> simp [Parser.pure_apply]

@[simp] theorem parser_pointer (ty : Draft) :
    (pointer ty).parser limit = Parser.pointer ty := by
  funext s
  rw [pointer, parser_look]
  unfold Parser.pointer
  split <;> simp [Parser.pure_apply, Loop.parser]

@[simp] theorem parser_parameter (list : Draft) :
    (parameter list).parser limit = Parser.parameter limit list := by
  simp [parameter, Parser.parameter, Production.parser]

@[simp] theorem parser_signature : signature.parser limit = Parser.signature limit := by
  simp [signature, Parser.signature, Production.parser]

@[simp] theorem parser_someParameters (list : Draft) :
    (someParameters list).parser limit = Parser.someParameters limit list := by
  funext s
  rw [someParameters, parser_look]
  unfold Parser.someParameters
  split <;> rfl

@[simp] theorem parser_group : group.parser limit = Parser.group limit := by
  simp [group, Parser.group, Production.parser]

@[simp] theorem parser_simpleStatement (d : Draft) :
    (simpleStatement d).parser limit = Parser.simpleStatement limit d := by
  funext s
  rw [simpleStatement, parser_look]
  unfold Parser.simpleStatement
  cases Construct.ofStatement? s.nextKind with
  | some construct => rfl
  | none => simp [Production.parser, Parser.returnLeaf]

@[simp] theorem parser_statementParts (d : Draft) :
    (statementParts d).parser limit = Parser.statementParts limit d := by
  funext s
  rw [statementParts, parser_look]
  unfold Parser.statementParts
  split
  · rfl
  · rw [parser_simpleStatement]

@[simp] theorem parser_startAgain (d : Draft) (child : Node) :
    (startAgain d child).parser limit = Turn.again <$> Parser.append d child := by
  simp [startAgain]

@[simp] theorem parser_bodyItem : bodyItem.parser limit = Parser.bodyItem limit := by
  simp [bodyItem, Parser.bodyItem, Production.parser]

@[simp] theorem parser_topLevel : topLevel.parser limit = Parser.topLevel limit := by
  simp [topLevel, Parser.topLevel, Production.parser]

end Scheme

namespace Loop

variable {limit : Option Nat}

theorem parser_plan_eq (l : Loop) (d : Draft) :
    (l.plan d).parser limit =
      (l.turn d).parser limit >>= fun turn => (l.follow turn).parser limit := parser_bind _ _

theorem parser_plan (l : Loop) (d : Draft) : (l.plan d).parser limit = l.parser limit d := by
  rw [parser_plan_eq]
  funext s
  cases l with
  | unitItems =>
    rw [show Loop.unitItems.parser limit d s = _ from Parser.unitItems_eq limit d s,
      Parser.bind_apply, turn, parser_look]
    split
    · rfl
    · rw [← Parser.bind_apply]
      simp [follow, Loop.parser]
  | bodyItems =>
    rw [show Loop.bodyItems.parser limit d s = _ from Parser.bodyItems_eq limit d s,
      Parser.bind_apply, turn, parser_look]
    split
    · rfl
    · rw [← Parser.bind_apply]
      simp [follow, Loop.parser]
  | compound =>
    rw [show Loop.compound.parser limit d s = _ from Parser.compound_eq limit d s,
      Parser.bind_apply, turn, parser_look]
    split
    · rfl
    · rw [← Parser.bind_apply]
      simp [follow, Loop.parser, Production.parser]
  | parameters =>
    rw [show Loop.parameters.parser limit d s = _ from Parser.parameters_eq limit d s, turn,
      parser_bind, bind_assoc, parser_parameter]
    refine Parser.bind_congr_of_matched fun list t _ => ?_
    rw [Parser.bind_apply, parser_look]
    split
    · rfl
    · split <;> rfl
  | stars =>
    rw [Parser.bind_apply, turn, parser_look]
    change _ = Parser.step (Parser.stars d) s
    rw [Parser.step, Parser.stars]
    split <;> rfl
  | operands =>
    rw [show Loop.operands.parser limit d s = _ from Parser.operands_eq limit d s,
      Parser.bind_apply, turn, parser_look]
    cases s.nextKind.expressionPart with
    | close => rfl
    | stray => rfl
    | operand => rfl
    | group =>
      change (((production (.ofRule .cast)).orElse group >>= startAgain d).parser limit >>=
        fun turn => (operands.follow turn).parser limit) s.skip = _
      simp [follow, Loop.parser, Production.parser]

end Loop

theorem Production.parser_plan (limit : Option Nat) (p : Production) :
    (p.plan limit).parser limit = p.parser limit := by
  cases p with
  | ofRule rule =>
    cases rule with
    | type => simp [plan, parser, Parser.typeName, typeParts]
    | variableDeclaration => simp [plan, parser, Parser.variableDeclaration]
    | variableDefinition => simp [plan, parser, Parser.variableDefinition]
    | parameterList => simp [plan, parser, Parser.parameterList]
    | functionDeclaration => simp [plan, parser, Parser.functionDeclaration]
    | functionDefinition => simp [plan, parser, Parser.functionDefinition]
    | functionBody => simp [plan, parser, Parser.functionBody, Loop.parser]
    | statement => simp [plan, parser, Parser.statement_eq]
    | expression => simp [plan, parser, Parser.expression_eq, Loop.parser]
    | cast => simp [plan, parser, Parser.cast]
  | identifier =>
    funext s
    rw [plan, parser_look]
    change _ = Parser.identifier s
    unfold Parser.identifier
    split <;> rfl
  | refusedDeclaration => rfl

/-- What is planned for a task is what is done for it. -/
theorem Task.parser_plan (limit : Option Nat) (c : Task) :
    (c.plan limit).parser limit = c.parser limit := by
  cases c with
  | unit => simp [plan, parser, Parser.translationUnit, Loop.parser]
  | production p => exact p.parser_plan limit
  | loop l d => exact l.parser_plan d
  | read => rfl

end MiniC
