import MiniC.Parse.Type

namespace MiniC

/-- What a token means inside an expression. -/
inductive ExpressionPart where
  | close | stray | group | operand
  deriving DecidableEq

/-- A `;` or `)` closes an expression, braces and the end of the input cannot be in one, a `(` opens
a group, and everything else is an operand or an operator. -/
def TokenKind.expressionPart : TokenKind → ExpressionPart
  | .semicolon | .rParen => .close
  | .lBrace | .rBrace | .eof => .stray
  | .lParen => .group
  | _ => .operand

theorem TokenKind.ne_eof_of_group {kind : TokenKind} (h : kind.expressionPart = .group) :
    kind ≠ .eof := by
  rintro rfl
  simp [expressionPart] at h

theorem TokenKind.ne_eof_of_operand {kind : TokenKind} (h : kind.expressionPart = .operand) :
    kind ≠ .eof := by
  rintro rfl
  simp [expressionPart] at h

def Node.toCast (n : Node) : Node := { n with kind := .cast }

namespace Parser

/-- A type and the closing parenthesis, behind the opening one. -/
def cast (limit : Option Nat) : Parser Node :=
  tryRule limit .cast do
    let ty ← typeName limit
    expect .rParen
    return ty.toCast

theorem consumes_cast (limit : Option Nat) : Consumes (cast limit) :=
  Consumes.tryRule ((consumes_typeName limit).andThen fun _ =>
    (reads_expect (by simp)).andThen fun _ => reads_pure _)

mutual

/-- `expression`, with the fact that it reads. -/
def expressionAux (limit : Option Nat) (s : State) :
    { r : Result Node // r.final.left ≤ s.left } :=
  if s.isFull limit then
    ⟨s.refuse .expression, Nat.le_refl _⟩
  else
    let start := (s.enter .expression).openNode .expression 4
    let r := operandsAux limit start.1 start.2
    ⟨s.leave .expression (r.val.map Draft.close),
      State.left_leave_le _ (by rw [Result.final_map]; exact r.property)⟩
termination_by 2 * s.left + 1
decreasing_by exact Nat.lt_succ_self _

def operandsAux (limit : Option Nat) (d : Draft) (s : State) :
    { r : Result Draft // r.final.left ≤ s.left } :=
  match hk : s.nextKind.expressionPart with
  | .close => ⟨⟨.matched d, s⟩, Nat.le_refl _⟩
  | .stray => ⟨⟨.mismatch, s⟩, Nat.le_refl _⟩
  | .operand =>
    let pushed := s.addLeaf d
    have hp : pushed.2.left < s.left :=
      State.left_addLeaf_lt d (TokenKind.ne_eof_of_operand hk)
    let r := operandsAux limit pushed.1 pushed.2
    ⟨r.val, Nat.le_trans r.property (Nat.le_of_lt hp)⟩
  | .group =>
    have ho : s.skip.left < s.left := State.left_skip_lt (TokenKind.ne_eof_of_group hk)
    match hc : cast limit s.skip with
    | ⟨.matched c, t⟩ =>
      have ht : t.left < s.left := Nat.lt_trans ((consumes_cast limit).lt hc) ho
      let pushed := t.append d c
      let r := operandsAux limit pushed.1 pushed.2
      ⟨r.val, Nat.le_trans r.property (Nat.le_of_lt ht)⟩
    | ⟨.fatal e, t⟩ =>
      ⟨⟨.fatal e, t⟩, Nat.le_trans ((consumes_cast limit).reads.le hc) (Nat.le_of_lt ho)⟩
    | ⟨.mismatch, t⟩ =>
      have ht : t.left < s.left := Nat.lt_of_le_of_lt ((consumes_cast limit).reads.le hc) ho
      match expressionAux limit t with
      | ⟨⟨.matched inner, u⟩, hu⟩ =>
        have hu : u.left < s.left := Nat.lt_of_le_of_lt hu ht
        if hr : u.nextKind = .rParen then
          have hv : u.skip.left < s.left :=
            Nat.lt_trans (State.left_skip_lt (by simp [hr])) hu
          let pushed := u.skip.append d inner
          let r := operandsAux limit pushed.1 pushed.2
          ⟨r.val, Nat.le_trans r.property (Nat.le_of_lt hv)⟩
        else
          ⟨⟨.mismatch, u⟩, Nat.le_of_lt hu⟩
      | ⟨⟨.mismatch, u⟩, hu⟩ => ⟨⟨.mismatch, u⟩, Nat.le_of_lt (Nat.lt_of_le_of_lt hu ht)⟩
      | ⟨⟨.fatal e, u⟩, hu⟩ => ⟨⟨.fatal e, u⟩, Nat.le_of_lt (Nat.lt_of_le_of_lt hu ht)⟩
termination_by 2 * s.left
decreasing_by
  all_goals
    simp +zetaDelta only [State.left, State.reader_append, State.reader_skip] at *
    omega

end

/-- The rest of an expression, behind the part that is in the node already. -/
def operands (limit : Option Nat) (d : Draft) : Parser Draft := fun s => (operandsAux limit d s).val

/-- `(operand | "(" type ")" | "(" expression ")")*` before a `;` or `)`, which stays. -/
def expression (limit : Option Nat) : Parser Node := fun s => (expressionAux limit s).val

theorem reads_expression (limit : Option Nat) : Reads (expression limit) :=
  fun s => (expressionAux limit s).property

/-- A group behind its opening parenthesis: an expression and the closing one. -/
def group (limit : Option Nat) : Parser Node := do
  let inner ← expression limit
  expect .rParen
  return inner

theorem expression_eq (limit : Option Nat) :
    expression limit = tryRule limit .expression do
      let d ← openNode .expression 4
      let d ← operands limit d
      return d.close := by
  funext s
  unfold expression expressionAux tryRule
  split
  · rfl
  · rfl

theorem operands_eq (limit : Option Nat) (d : Draft) (s : State) :
    operands limit d s =
      match s.nextKind.expressionPart with
      | .close => ⟨.matched d, s⟩
      | .stray => ⟨.mismatch, s⟩
      | .operand => operands limit (s.addLeaf d).1 (s.addLeaf d).2
      | .group =>
        (((cast limit).orElse (group limit) >>= fun inner => append d inner) >>= operands limit)
          s.skip := by
  unfold operands
  rw [operandsAux]
  split
  · next h => simp only [h]
  · next h => simp only [h]
  · next h => simp only [h]
  · next h =>
    simp only [h, bind_apply, orElse, group, expression]
    split
    · next hc => simp [hc, append, step]
    · next hc => simp [hc]
    · next hc =>
      split
      · next he => split <;> simp_all [bind_apply, append, step, expect, pure_apply]
      · next he => simp_all
      · next he => simp_all

end Parser

end MiniC
