import MiniC.Parse.Type

namespace MiniC.Parser

def identifier : Parser Node := fun s =>
  if s.nextKind = .ident then step State.takeLeaf s else ⟨.mismatch, s⟩

/-- `"extern" type identifier ";"` -/
def variableDeclaration (limit : Option Nat) : Parser Node :=
  tryRule limit .variableDeclaration do
    let line ← nextLine
    expect .kwExtern
    let ty ← typeName limit
    let name ← identifier
    expect .semicolon
    nodeOf .varDecl line [ty, name]

/-- `type identifier ";"` -/
def variableDefinition (limit : Option Nat) : Parser Node :=
  tryRule limit .variableDefinition do
    let line ← nextLine
    let ty ← typeName limit
    let name ← identifier
    expect .semicolon
    nodeOf .varDef line [ty, name]

def parameter (limit : Option Nat) (list : Draft) : Parser Draft := do
  let ty ← typeName limit
  let name ← identifier
  let list ← append list ty
  append list name

theorem consumes_identifier : Consumes identifier := by
  intro s
  unfold identifier
  split
  · next h =>
    have hs : s.nextKind ≠ .eof := by simp [h]
    have : s.takeLeaf.2.left < s.left := by
      simpa [State.left] using Reader.left_rest_lt hs
    exact ⟨Nat.le_of_lt this, fun _ _ => this⟩
  · exact Result.consumed_mismatch (Nat.le_refl _)

theorem consumes_variableDeclaration (limit : Option Nat) :
    Consumes (variableDeclaration limit) := by
  refine Consumes.tryRule ?_
  refine reads_nextLine.thenConsumes fun _ => ?_
  refine (consumes_expect (by simp)).andThen fun _ => ?_
  refine (consumes_typeName limit).reads.andThen fun _ => ?_
  refine consumes_identifier.reads.andThen fun _ => ?_
  exact (reads_expect (by simp)).andThen fun _ => reads_nodeOf _ _ _

theorem consumes_variableDefinition (limit : Option Nat) :
    Consumes (variableDefinition limit) := by
  refine Consumes.tryRule ?_
  refine reads_nextLine.thenConsumes fun _ => ?_
  refine (consumes_typeName limit).andThen fun _ => ?_
  refine consumes_identifier.reads.andThen fun _ => ?_
  exact (reads_expect (by simp)).andThen fun _ => reads_nodeOf _ _ _

theorem consumes_parameter (limit : Option Nat) (list : Draft) :
    Consumes (parameter limit list) := by
  refine (consumes_typeName limit).andThen fun _ => ?_
  refine consumes_identifier.reads.andThen fun _ => ?_
  exact (reads_append _ _).andThen fun _ => reads_append _ _

/-- One parameter or more, up to the closing parenthesis. -/
def parameters (limit : Option Nat) (list : Draft) (s : State) : Result Draft :=
  match _h : parameter limit list s with
  | ⟨.matched list, t⟩ =>
    if t.nextKind = .rParen then ⟨.matched list, t⟩
    else if t.nextKind = .comma then parameters limit list t.skip
    else ⟨.mismatch, t⟩
  | ⟨.mismatch, t⟩ => ⟨.mismatch, t⟩
  | ⟨.fatal e, t⟩ => ⟨.fatal e, t⟩
termination_by s.left
decreasing_by
  next hc => exact Nat.lt_trans (State.left_skip_lt (by simp [hc])) ((consumes_parameter _ _).lt _h)

theorem parameters_eq (limit : Option Nat) (list : Draft) (s : State) :
    parameters limit list s = (parameter limit list >>= fun list t =>
      if t.nextKind = .rParen then ⟨.matched list, t⟩
      else if t.nextKind = .comma then parameters limit list t.skip
      else ⟨.mismatch, t⟩) s := by
  rw [parameters, bind_apply]
  split <;> simp_all

theorem reads_parameters (limit : Option Nat) (list : Draft) : Reads (parameters limit list) := by
  intro s
  fun_induction parameters limit list s with
  | case1 _ _ _ _ h _ => exact (consumes_parameter _ _).reads.le h
  | case2 _ _ _ _ h _ hc ih =>
    exact Nat.le_trans ih (Nat.le_of_lt (Nat.lt_trans (State.left_skip_lt (by simp [hc]))
      ((consumes_parameter _ _).lt h)))
  | case3 _ _ _ _ h => exact (consumes_parameter _ _).reads.le h
  | case4 _ _ _ h => exact (consumes_parameter _ _).reads.le h
  | case5 _ _ _ _ h => exact (consumes_parameter _ _).reads.le h

def someParameters (limit : Option Nat) (list : Draft) : Parser Draft := fun s =>
  if s.nextKind = .rParen then ⟨.matched list, s⟩ else parameters limit list s

/-- `(type identifier ("," type identifier)*)?` before a closing parenthesis, which stays. -/
def parameterList (limit : Option Nat) : Parser Node :=
  tryRule limit .parameterList do
    let list ← openNode .paramList 4
    let list ← someParameters limit list
    return list.close

/-- `type identifier "(" parameter list ")"` -/
def signature (limit : Option Nat) : Parser (List Node) := do
  let ty ← typeName limit
  let name ← identifier
  expect .lParen
  let list ← parameterList limit
  expect .rParen
  return [ty, name, list]

/-- `signature ";"` -/
def functionDeclaration (limit : Option Nat) : Parser Node :=
  tryRule limit .functionDeclaration do
    let line ← nextLine
    let parts ← signature limit
    expect .semicolon
    nodeOf .funcDecl line parts

/-- The place of aggregates and type definitions, all of which are refused. -/
def refusedDeclaration : Parser Node := fun s =>
  match Construct.ofDeclaration? s.nextKind with
  | some construct => refuseConstruct construct s
  | none => ⟨.mismatch, s⟩

theorem reads_someParameters (limit : Option Nat) (list : Draft) :
    Reads (someParameters limit list) := by
  intro s
  unfold someParameters
  split
  · exact Nat.le_refl _
  · exact reads_parameters limit list s

theorem reads_parameterList (limit : Option Nat) : Reads (parameterList limit) :=
  Reads.tryRule ((reads_openNode _ _).andThen fun _ =>
    (reads_someParameters limit _).andThen fun _ => reads_pure _)

theorem consumes_signature (limit : Option Nat) : Consumes (signature limit) := by
  refine (consumes_typeName limit).andThen fun _ => ?_
  refine consumes_identifier.reads.andThen fun _ => ?_
  refine (reads_expect (by simp)).andThen fun _ => ?_
  refine (reads_parameterList limit).andThen fun _ => ?_
  exact (reads_expect (by simp)).andThen fun _ => reads_pure _

theorem consumes_functionDeclaration (limit : Option Nat) :
    Consumes (functionDeclaration limit) := by
  refine Consumes.tryRule ?_
  refine reads_nextLine.thenConsumes fun _ => ?_
  refine (consumes_signature limit).andThen fun _ => ?_
  exact (reads_expect (by simp)).andThen fun _ => reads_nodeOf _ _ _

theorem consumes_refusedDeclaration : Consumes refusedDeclaration := by
  intro s
  unfold refusedDeclaration
  split
  · exact consumes_refuseConstruct _ s
  · exact Result.consumed_mismatch (Nat.le_refl _)

end MiniC.Parser
