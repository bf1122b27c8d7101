import MiniC.Parse.Declaration
import MiniC.Parse.Statement

namespace MiniC.Parser

/-- A local variable or a statement. -/
def bodyItem (limit : Option Nat) : Parser Node :=
  (variableDefinition limit).orElse (statement limit)

theorem consumes_bodyItem (limit : Option Nat) : Consumes (bodyItem limit) :=
  (consumes_variableDefinition limit).orElse (consumes_statement limit)

/-- The items of a body up to the closing brace, behind those that are in the node already. -/
def bodyItems (limit : Option Nat) (body : Draft) (s : State) : Result Draft :=
  if s.nextKind = .rBrace then
    ⟨.matched body, s⟩
  else
    match _h : bodyItem limit s with
    | ⟨.matched item, t⟩ =>
      let pushed := t.append body item
      bodyItems limit pushed.1 pushed.2
    | ⟨.mismatch, t⟩ => ⟨.mismatch, t⟩
    | ⟨.fatal e, t⟩ => ⟨.fatal e, t⟩
termination_by s.left
decreasing_by
  have : t.left < s.left := (consumes_bodyItem limit).lt _h
  exact this

theorem bodyItems_eq (limit : Option Nat) (body : Draft) (s : State) :
    bodyItems limit body s =
      if s.nextKind = .rBrace then ⟨.matched body, s⟩
      else ((bodyItem limit >>= fun item => append body item) >>= bodyItems limit) s := by
  rw [bodyItems]
  split
  · rfl
  · simp only [bind_apply]
    split
    · next h => simp [h, append, step]
    · next h => simp [h]
    · next h => simp [h]

theorem reads_bodyItems (limit : Option Nat) (body : Draft) : Reads (bodyItems limit body) := by
  intro s
  fun_induction bodyItems limit body s with
  | case1 => exact Nat.le_refl _
  | case2 body s _ item t h pushed ih =>
    have : t.left < s.left := (consumes_bodyItem limit).lt h
    exact Nat.le_trans ih (Nat.le_of_lt this)
  | case3 body s _ t h => exact (consumes_bodyItem limit).reads.le h
  | case4 body s _ e t h => exact (consumes_bodyItem limit).reads.le h

/-- `(variable definition | statement)*` before a closing brace, which stays. -/
def functionBody (limit : Option Nat) : Parser Node :=
  tryRule limit .functionBody do
    let body ← openNode .statementList 4
    let body ← bodyItems limit body
    return body.close

/-- `signature "{" function body "}"` -/
def functionDefinition (limit : Option Nat) : Parser Node :=
  tryRule limit .functionDefinition do
    let line ← nextLine
    let parts ← signature limit
    expect .lBrace
    let body ← functionBody limit
    expect .rBrace
    nodeOf .funcDef line (parts ++ [body])

theorem reads_functionBody (limit : Option Nat) : Reads (functionBody limit) :=
  Reads.tryRule ((reads_openNode _ _).andThen fun _ =>
    (reads_bodyItems limit _).andThen fun _ => reads_pure _)

theorem consumes_functionDefinition (limit : Option Nat) :
    Consumes (functionDefinition limit) := by
  refine Consumes.tryRule ?_
  refine reads_nextLine.thenConsumes fun _ => ?_
  refine (consumes_signature limit).andThen fun _ => ?_
  refine (reads_expect (by simp)).andThen fun _ => ?_
  refine (reads_functionBody limit).andThen fun _ => ?_
  exact (reads_expect (by simp)).andThen fun _ => reads_nodeOf _ _ _

end MiniC.Parser
