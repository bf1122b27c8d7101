import MiniC.Proofs.Syntax.Grammar

namespace MiniC.Grammar

/-- The first kind, if it has the property, and what is left. -/
def cutOptional (property : TokenKind → Bool) : Word → Word × Word
  | [] => ([], [])
  | k :: w => if property k then ([k], w) else ([], k :: w)

theorem cutOptional_append (property : TokenKind → Bool) (w : Word) :
    (cutOptional property w).1 ++ (cutOptional property w).2 = w := by
  unfold cutOptional
  split
  · rfl
  · split <;> rfl

theorem cutOptional_ne_nil_iff {property : TokenKind → Bool} {w : Word} :
    (cutOptional property w).1 ≠ [] ↔ ∃ k ∈ w.head?, property k = true := by
  cases w with
  | nil => simp [cutOptional]
  | cons k w => by_cases hk : property k = true <;> simp [cutOptional, hk]

/-- The qualifier behind the stars at the front of a word. Without a star there is none. -/
def cutOuter (w : Word) : Word × Word :=
  let behind := w.dropWhile (· == .star)
  if w.takeWhile (· == .star) = [] then ([], behind) else cutOptional TokenKind.isQualifier behind

theorem cutOuter_append (w : Word) :
    (cutOuter w).1 ++ (cutOuter w).2 = w.dropWhile (· == .star) := by
  unfold cutOuter
  split
  · rfl
  · exact cutOptional_append _ _

/-- The parts of a type at the front of a word, and what is left of the word. -/
structure TypeParts where
  storage : Word
  lead : Word
  sign : Word
  base : Word
  inner : Word
  stars : Word
  outer : Word
  rest : Word

namespace TypeParts

/-- Takes every part that comes next. -/
def ofWord (w : Word) : TypeParts :=
  let storage := cutOptional TokenKind.isStorage w
  let lead := cutOptional TokenKind.isQualifier storage.2
  let sign := cutOptional TokenKind.isSign lead.2
  let base := cutOptional TokenKind.isBase sign.2
  let inner := cutOptional TokenKind.isQualifier base.2
  let outer := cutOuter inner.2
  ⟨storage.1, lead.1, sign.1, base.1, inner.1, inner.2.takeWhile (· == .star), outer.1, outer.2⟩

def taken (p : TypeParts) : Word :=
  p.storage ++ p.lead ++ p.sign ++ p.base ++ p.inner ++ p.stars ++ p.outer

/-- There is a base, qualifiers are not on both sides of it, and not two of them behind stars. -/
def Accepted (p : TypeParts) : Prop :=
  p.base ≠ [] ∧ ¬(p.lead ≠ [] ∧ p.inner ≠ []) ∧
    ¬(p.stars ≠ [] ∧ p.outer ≠ [] ∧ ∃ k ∈ p.rest.head?, k.isQualifier = true)

/-- Taking loses nothing. -/
theorem taken_append_rest (w : Word) : (ofWord w).taken ++ (ofWord w).rest = w := by
  simp only [ofWord, taken, List.append_assoc]
  rw [cutOuter_append, List.takeWhile_append_dropWhile, cutOptional_append, cutOptional_append,
    cutOptional_append, cutOptional_append, cutOptional_append]

end TypeParts

end MiniC.Grammar
