import MiniC.Proofs.Parsing.Position

namespace MiniC

open Syntax Grammar

/-- What is refused when a parse is given up. -/
inductive Halt where
  | refused (construct : Construct)
  | tooDeep (rule : Rule)

namespace Halt

def error (h : Halt) (line : Nat) : ParseError :=
  match h with
  | refused construct => .unsupported construct line
  | tooDeep _ => .nestingTooDeep line

def event (h : Halt) (line : Nat) : Event :=
  match h with
  | refused construct => .unsupported construct line
  | tooDeep rule => .limitReached rule line

/-- The error and the latest event at `t` are about what comes next there. -/
structure Reported (h : Halt) (e : ParseError) (t : State) : Prop where
  error : e = h.error t.nextLine
  event : t.log.head? = some (h.event t.nextLine)

end Halt

/-- Between `s` and `t` a text of this form was run through before the parse was given up. -/
def State.GivenUp (Form : List Sign → Halt → Prop) (s : State) (e : ParseError) (t : State) : Prop :=
  ∃ p h, Form p h ∧ WrittenUpTo p s.pending t.pending ∧ h.Reported e t

namespace State.GivenUp

variable {Form : List Sign → Halt → Prop} {s t u : State} {e : ParseError} {h : Halt}

theorem here (hp : t.pending = s.pending) (hform : Form [] h) (hrep : h.Reported e t) :
    s.GivenUp Form e t := ⟨[], h, hform, hp ▸ .nil _, hrep⟩

theorem of_pending (hp : u.pending = s.pending) (hu : u.GivenUp Form e t) : s.GivenUp Form e t := by
  obtain ⟨p, h, hform, hw, hrep⟩ := hu
  exact ⟨p, h, hform, hp ▸ hw, hrep⟩

end State.GivenUp

/-- The first kind of a word that is no operand. -/
def Grammar.firstBreak (w : Word) : Option TokenKind := w.find? fun k => !decide (IsOperand k)

theorem Grammar.firstBreak_append {v w : Word} (hv : ∀ k ∈ v, IsOperand k) :
    firstBreak (v ++ w) = firstBreak w := by
  have hnone : v.find? (fun k => !decide (IsOperand k)) = none :=
    List.find?_eq_none.mpr fun k hk => by simpa using hv k hk
  rw [firstBreak, List.find?_append, hnone, Option.none_or]
  rfl

namespace Syntax

theorem firstBreak_of_leaves {ls : List Leaf} (hls : ∀ l ∈ ls, IsOperand l.kind) {k : TokenKind}
    (hk : ¬IsOperand k) {l r : List Token}
    (h : WrittenUpTo (ls.map .leaf ++ [.mark k]) l r) : firstBreak (l.map Token.kind) = some k := by
  have hops : ∀ j ∈ (ls.map Sign.leaf).map Sign.kind, IsOperand j := by
    simpa [Sign.kind] using hls
  rw [h.kinds, List.map_append, List.append_assoc, firstBreak_append hops]
  simp [firstBreak, Sign.kind, hk]

namespace Expression

theorem Canonical.firstBreak_eq {e : Expression} (h : e.Canonical) (p : List Sign)
    {l r : List Token} (hw : WrittenUpTo (e.print ++ .mark .lParen :: p) l r) :
    firstBreak (l.map Token.kind) = some .lParen := by
  rw [hw.kinds, List.map_append]
  clear hw
  induction e with
  | nil => rfl
  | leaf l rest ih =>
    have hop : ∀ k ∈ [l.kind], IsOperand k := by simpa using h.1
    exact (firstBreak_append hop).trans (ih h.2)
  | cast ty rest => rfl
  | group inner rest => rfl

/-- With so many rules in progress, what comes behind an opening parenthesis in an expression is
given up for want of room: for a cast, its type, or what further parentheses enclose. -/
inductive Overruns (limit : Option Nat) : Nat → List Sign → Rule → Prop where
  | cast {depth : Nat} : ¬Room limit (depth + 1) → Overruns limit depth [] .cast
  | type {depth : Nat} : Room limit (depth + 1) → ¬Room limit (depth + 2) →
      Overruns limit depth [] .type
  | group {depth : Nat} {before : Expression} {p : List Sign} {rule : Rule} :
      Room limit (depth + 2) → before.Canonical → before.Fits limit (depth + 1) →
      Overruns limit (depth + 1) p rule →
      Overruns limit depth (before.print ++ .mark .lParen :: p) rule

/-- With so many rules in progress around it, an expression is given up behind the text. -/
inductive Halts (limit : Option Nat) (depth : Nat) : List Sign → Rule → Prop where
  | refused : ¬Room limit (depth + 1) → Halts limit depth [] .expression
  | overrun {before : Expression} {p : List Sign} {rule : Rule} : Room limit (depth + 1) →
      before.Canonical → before.Fits limit (depth + 1) → Overruns limit (depth + 1) p rule →
      Halts limit depth (before.print ++ .mark .lParen :: p) rule

end Expression

/-- With so many rules in progress around it, a statement is given up behind the text and before a
token of the kind `k`. -/
inductive Statement.Halts (limit : Option Nat) (k : TokenKind) : Nat → List Sign → Halt → Prop where
  | refused {depth : Nat} : ¬Room limit (depth + 1) → Halts limit k depth [] (.tooDeep .statement)
  | keyword {depth : Nat} {c : Construct} : Room limit (depth + 1) →
      Construct.ofStatement? k = some c → Halts limit k depth [] (.refused c)
  | compound {depth : Nat} {body : List Statement} {p : List Sign} {h : Halt} :
      Room limit (depth + 1) → (∀ st ∈ body, st.Canonical) →
      (∀ st ∈ body, st.Fits limit (depth + 1)) → Halts limit k (depth + 1) p h →
      leadKind p k ≠ .rBrace →
      Halts limit k depth (.mark .lBrace :: (body.flatMap Statement.print ++ p)) h
  | ret {depth : Nat} {text? : Option String} {p : List Sign} {rule : Rule} :
      Room limit (depth + 1) → Expression.Halts limit (depth + 1) p rule →
      Halts limit k depth (.leaf ⟨.kwReturn, text?⟩ :: p) (.tooDeep rule)
  | expression {depth : Nat} {p : List Sign} {rule : Rule} : Room limit (depth + 1) →
      Expression.Halts limit (depth + 1) p rule → leadKind p k ≠ .lBrace →
      leadKind p k ≠ .kwReturn → Construct.ofStatement? (leadKind p k) = none →
      Halts limit k depth p (.tooDeep rule)

/-- As `Statement.Halts`, at top level: at a declaration's keyword or in the body of a function. -/
inductive Item.Halts (limit : Option Nat) (k : TokenKind) (depth : Nat) :
    List Sign → Halt → Prop where
  | declaration {c : Construct} : Construct.ofDeclaration? k = some c →
      Halts limit k depth [] (.refused c)
  | body {g : Signature} {body : List Local} {p : List Sign} {h : Halt} :
      (∀ x ∈ body, x.Canonical) → (∀ x ∈ body, x.Fits limit (depth + 2)) →
      Statement.Halts limit k (depth + 2) p h → leadKind p k ≠ .rBrace →
      Halts limit k depth (g.print ++ .mark .lBrace :: (body.flatMap Local.print ++ p)) h

inductive TranslationUnit.Halts (limit : Option Nat) (k : TokenKind) (depth : Nat) :
    List Sign → Halt → Prop where
  | intro {u : TranslationUnit} {p : List Sign} {h : Halt} : u.Canonical →
      (∀ i ∈ u, i.Fits limit depth) → Item.Halts limit k depth p h →
      Halts limit k depth (u.print ++ p) h

section Keyword

variable {limit : Option Nat} {k : TokenKind} {depth : Nat} {p : List Sign} {c : Construct}

theorem Statement.Halts.keyword_of_refused {h : Halt} (hh : Statement.Halts limit k depth p h)
    (hc : h = .refused c) : Construct.ofStatement? k = some c := by
  induction hh with
  | refused => simp at hc
  | keyword _ hk =>
    obtain rfl := Halt.refused.inj hc
    exact hk
  | compound _ _ _ _ _ ih => exact ih hc
  | ret => simp at hc
  | expression => simp at hc

/-- A construct is refused at its keyword, which is the next token. -/
theorem TranslationUnit.Halts.keyword_of_refused
    (h : TranslationUnit.Halts limit k depth p (.refused c)) :
    Construct.ofStatement? k = some c ∨ Construct.ofDeclaration? k = some c := by
  obtain ⟨-, -, ⟨hc⟩ | ⟨-, -, hst, -⟩⟩ := h
  · exact .inr hc
  · exact .inl (hst.keyword_of_refused rfl)

theorem Item.Halts.first {h : Halt} (hh : Item.Halts limit k depth p h) :
    (p = [] ∧ ∃ c, h = .refused c ∧ Construct.ofDeclaration? k = some c) ∨
      isTypePart (leadKind p k) = true := by
  cases hh with
  | declaration hc => exact .inl ⟨rfl, _, rfl, hc⟩
  | @body g body p _ _ _ _ =>
    obtain ⟨j, w, hw, hpart⟩ := g.isSignature_kinds.head_typePart
    obtain ⟨sign, q, hq, rfl, -⟩ := List.map_eq_cons_iff.mp hw
    rw [hq]
    exact .inr hpart

end Keyword

theorem Statement.Halts.not_definition {limit : Option Nat} {depth : Nat} {p : List Sign} {h : Halt}
    {l r r' : List Token} (hh : Statement.Halts limit (firstKind r) depth p h)
    (hroom : Room limit (depth + 2)) (hw : WrittenUpTo p l r) (v : Variable) :
    ¬WrittenUpTo (v.print ++ [.mark .semicolon]) l r' := by
  intro hv
  obtain ⟨m, hm, -⟩ := hv.split
  obtain ⟨x, l', rfl, hx⟩ := v.starts_with_typePart hm
  have hlead : x.kind = leadKind p (firstKind r) := hw.firstKind_eq
  cases hh with
  | refused hr => exact hr (hroom.mono (by omega))
  | keyword _ hc =>
    rw [← show x.kind = firstKind r from hlead, (plain_of_isTypePart hx).2] at hc
    simp at hc
  | compound _ _ _ _ _ =>
    rw [show x.kind = .lBrace from hlead] at hx
    exact absurd hx (by decide)
  | ret _ _ =>
    rw [show x.kind = .kwReturn from hlead] at hx
    exact absurd hx (by decide)
  | expression _ he _ _ _ =>
    cases he with
    | refused hr => exact hr hroom
    | overrun _ hcan _ _ =>
      obtain ⟨ls, hls, -, hops⟩ := v.exists_leaves
      rw [hls] at hv
      have hsemi := firstBreak_of_leaves hops (by decide) hv
      rw [hcan.firstBreak_eq _ hw] at hsemi
      simp at hsemi

end Syntax

end MiniC
