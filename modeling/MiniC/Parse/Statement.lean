import MiniC.Parse.Expression

namespace MiniC.Parser

/-- The keyword of a return statement, if the statement is one. -/
def returnLeaf (d : Draft) : Parser Draft := optionalLeaf (· == .kwReturn) d

/-- A statement without braces, whose parts become the children of a node. -/
def simpleStatement (limit : Option Nat) (d : Draft) : Parser Draft := fun s =>
  match Construct.ofStatement? s.nextKind with
  | some construct => refuseConstruct construct s
  | none =>
    (do let d ← returnLeaf d
        let e ← expression limit
        expect .semicolon
        append d e : Parser Draft) s

theorem consumes_simpleStatement (limit : Option Nat) (d : Draft) :
    Consumes (simpleStatement limit d) := by
  intro s
  unfold simpleStatement
  split
  · exact consumes_refuseConstruct _ s
  · refine Reads.thenConsumes (reads_optionalLeaf rfl _) (fun _ => ?_) s
    refine (reads_expression limit).thenConsumes fun _ => ?_
    exact (consumes_expect (by simp)).andThen fun _ => reads_append _ _

mutual

/-- `statement`, with the fact that it consumes. -/
def statementAux (limit : Option Nat) (s : State) : { r : Result Node // r.Consumed s } :=
  if s.isFull limit then
    ⟨s.refuse .statement, s.consumed_refuse .statement⟩
  else
    let start := (s.enter .statement).openNode .statement 2
    if hb : start.2.nextKind = .lBrace then
      have hl : start.2.skip.left < s.left :=
        State.left_skip_lt (s := start.2) (by simp [hb])
      let r := compoundAux limit start.1 start.2.skip
      ⟨s.leave .statement (r.val.map Draft.close),
        State.consumed_leave _ ((r.property.map _).mono (Nat.le_of_lt hl))⟩
    else
      ⟨s.leave .statement ((simpleStatement limit start.1 start.2).map Draft.close),
        State.consumed_leave _ (((consumes_simpleStatement limit _ _).map _).mono
          (Nat.le_refl _))⟩
termination_by 2 * s.left
decreasing_by
  change 2 * start.2.skip.left + 1 < 2 * s.left
  omega

def compoundAux (limit : Option Nat) (d : Draft) (s : State) :
    { r : Result Draft // r.Consumed s } :=
  if hb : s.nextKind = .rBrace then
    have h : s.skip.left < s.left := State.left_skip_lt (by simp [hb])
    ⟨⟨.matched d, s.skip⟩, Nat.le_of_lt h, fun _ _ => h⟩
  else
    match statementAux limit s with
    | ⟨⟨.matched inner, t⟩, ht⟩ =>
      have hl : t.left < s.left := ht.lt inner rfl
      let pushed := t.append d inner
      have hp : pushed.2.left = t.left := rfl
      let r := compoundAux limit pushed.1 pushed.2
      ⟨r.val, r.property.mono (Nat.le_of_lt hl)⟩
    | ⟨⟨.mismatch, t⟩, ht⟩ => ⟨⟨.mismatch, t⟩, Result.consumed_mismatch ht.le⟩
    | ⟨⟨.fatal e, t⟩, ht⟩ => ⟨⟨.fatal e, t⟩, Result.consumed_fatal e ht.le⟩
termination_by 2 * s.left + 1

end

/-- The rest of a compound statement and its closing brace. -/
def compound (limit : Option Nat) (d : Draft) : Parser Draft := fun s => (compoundAux limit d s).val

/-- `"{" statement* "}" | "return" expression ";" | expression ";"` -/
def statement (limit : Option Nat) : Parser Node := fun s => (statementAux limit s).val

theorem consumes_statement (limit : Option Nat) : Consumes (statement limit) :=
  fun s => (statementAux limit s).property

def statementParts (limit : Option Nat) (d : Draft) : Parser Draft := fun s =>
  if s.nextKind = .lBrace then compound limit d s.skip else simpleStatement limit d s

theorem statement_eq (limit : Option Nat) :
    statement limit = tryRule limit .statement do
      let d ← openNode .statement 2
      let d ← statementParts limit d
      return d.close := by
  funext s
  unfold statement statementAux tryRule
  split
  · rfl
  · simp only [bind_apply, openNode, step, Result.andThen_matched, statementParts]
    split <;> rfl

theorem compound_eq (limit : Option Nat) (d : Draft) (s : State) :
    compound limit d s =
      if s.nextKind = .rBrace then ⟨.matched d, s.skip⟩
      else ((statement limit >>= fun inner => append d inner) >>= compound limit) s := by
  unfold compound
  rw [compoundAux]
  split
  · rfl
  · simp only [bind_apply, statement]
    split
    · next h => simp [h, append, step]
    · next h => simp [h]
    · next h => simp [h]

end MiniC.Parser
