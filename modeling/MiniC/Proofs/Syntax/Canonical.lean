import MiniC.Proofs.Syntax.Tree

namespace MiniC.Syntax

open Grammar

namespace Expression

/-- Every leaf is an operand or an operator, and what is a type between parentheses is a cast. -/
def Canonical : Expression → Prop
  | nil => True
  | leaf l rest => IsOperand l.kind ∧ rest.Canonical
  | cast _ rest => rest.Canonical
  | group inner rest =>
    (∀ ls, inner = ofLeaves ls → ¬IsType (ls.map Leaf.kind)) ∧ inner.Canonical ∧ rest.Canonical

/-- Neither the keyword of a refused statement nor that of a return statement comes first. -/
def StartsAsOperand (e : Expression) : Prop :=
  ∀ l rest, e = leaf l rest → l.kind ≠ .kwReturn ∧ Construct.ofStatement? l.kind = none

/-- With `b` compound statements and `p` pairs of parentheses around the expression, no pair of
parentheses in it is inside of more than 250 others and compound statements. -/
def NestsWithin (b : Nat) : Nat → Expression → Prop
  | _, nil => True
  | p, leaf _ rest => rest.NestsWithin b p
  | p, cast _ rest => b + p ≤ 250 ∧ rest.NestsWithin b p
  | p, group inner rest => b + p ≤ 250 ∧ inner.NestsWithin b (p + 1) ∧ rest.NestsWithin b p

end Expression

namespace Statement

inductive Canonical : Statement → Prop where
  | compound {body : List Statement} : (∀ s ∈ body, Canonical s) → Canonical (.compound body)
  | ret {text? : Option String} {value : Expression} : value.Canonical → Canonical (.ret text? value)
  | expression {e : Expression} : e.Canonical → e.StartsAsOperand → Canonical (.expression e)

/-- With `b` compound statements around the statement, no statement is inside of more than 253 of
them, none without braces is inside of more than 252, and so on for expressions. -/
inductive NestsWithin : Nat → Statement → Prop where
  | compound {b : Nat} {body : List Statement} : b ≤ 253 → (∀ s ∈ body, NestsWithin (b + 1) s) →
      NestsWithin b (.compound body)
  | ret {b : Nat} {text? : Option String} {value : Expression} : b ≤ 252 → value.NestsWithin b 0 →
      NestsWithin b (.ret text? value)
  | expression {b : Nat} {e : Expression} : b ≤ 252 → e.NestsWithin b 0 →
      NestsWithin b (.expression e)

end Statement

namespace Local

/-- What can be read as the definition of a variable is one. -/
def Canonical : Local → Prop
  | definition _ => True
  | statement s =>
    s.Canonical ∧ ∀ ls, s = .expression (.ofLeaves ls) → ¬IsVariable (ls.map Leaf.kind)

def NestsWithin : Local → Prop
  | definition _ => True
  | statement s => s.NestsWithin 0

end Local

namespace Item

/-- An `extern` that comes first makes a declaration of a variable. -/
def Canonical : Item → Prop
  | declaration _ => True
  | definition v => ∀ l ∈ v.type.leaves.head?, l.kind ≠ .kwExtern
  | prototype _ => True
  | function _ body => ∀ x ∈ body, x.Canonical

def NestsWithin : Item → Prop
  | function _ body => ∀ x ∈ body, x.NestsWithin
  | _ => True

end Item

namespace TranslationUnit

def Canonical (u : TranslationUnit) : Prop := ∀ i ∈ u, i.Canonical

def NestsWithin (u : TranslationUnit) : Prop := ∀ i ∈ u, i.NestsWithin

end TranslationUnit

end MiniC.Syntax
