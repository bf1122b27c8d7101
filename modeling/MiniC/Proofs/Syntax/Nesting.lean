import MiniC.Proofs.Syntax.Canonical

namespace MiniC.Syntax

namespace Expression

/-- For each pair of parentheses, of a cast or around operands, the number of pairs around it, if
there are `p` around the expression. -/
def groups : Nat → Expression → List Nat
  | _, nil => []
  | p, leaf _ rest => rest.groups p
  | p, cast _ rest => p :: rest.groups p
  | p, group inner rest => p :: (inner.groups (p + 1) ++ rest.groups p)

theorem nestsWithin_iff {b p : Nat} {e : Expression} :
    e.NestsWithin b p ↔ ∀ q ∈ e.groups p, b + q ≤ 250 := by
  induction e generalizing p with
  | nil => simp [NestsWithin, groups]
  | leaf l rest ih => exact ih
  | cast ty rest ih => simp only [NestsWithin, groups, List.forall_mem_cons, ih]
  | group inner rest ihi ihr =>
    simp only [NestsWithin, groups, List.forall_mem_cons, List.forall_mem_append, ihi, ihr]

end Expression

namespace Statement

mutual

/-- The statement and all statements in it, each with the number of compound statements around it,
if there are `b` around the first. -/
def within : Nat → Statement → List (Nat × Statement)
  | b, compound body => (b, compound body) :: withinAll (b + 1) body
  | b, ret text? value => [(b, ret text? value)]
  | b, expression e => [(b, expression e)]

def withinAll : Nat → List Statement → List (Nat × Statement)
  | _, [] => []
  | b, s :: ss => within b s ++ withinAll b ss

end

def value? : Statement → Option Expression
  | compound _ => none
  | ret _ value => some value
  | expression e => some e

/-- There may be `b` compound statements around the statement, whatever is in its braces. -/
structure AllowedAt (b : Nat) (st : Statement) : Prop where
  le : b ≤ 253
  value_le : ∀ e ∈ st.value?, b ≤ 252
  groups_le : ∀ e ∈ st.value?, ∀ p ∈ e.groups 0, b + p ≤ 250

theorem allowedAt_compound {b : Nat} {body : List Statement} :
    AllowedAt b (.compound body) ↔ b ≤ 253 :=
  ⟨fun h => h.le, fun h => ⟨h, by simp [value?], by simp [value?]⟩⟩

theorem allowedAt_of_value {b : Nat} {st : Statement} {e : Expression} (h : st.value? = some e) :
    AllowedAt b st ↔ b ≤ 252 ∧ e.NestsWithin b 0 := by
  rw [Expression.nestsWithin_iff]
  constructor
  · intro ha
    exact ⟨ha.value_le e h, ha.groups_le e h⟩
  · rintro ⟨hb, hp⟩
    refine ⟨by omega, fun _ _ => hb, fun e' he' => ?_⟩
    obtain rfl : e = e' := Option.some.inj (h.symm.trans he')
    exact hp

mutual

theorem nestsWithin_iff (b : Nat) :
    ∀ st : Statement, st.NestsWithin b ↔ ∀ x ∈ st.within b, AllowedAt x.1 x.2
  | compound body => by
    have hall := nestsWithinAll_iff (b + 1) body
    rw [within, List.forall_mem_cons, allowedAt_compound, ← hall]
    constructor
    · rintro (⟨hb, hbody⟩ | _ | _)
      exact ⟨hb, hbody⟩
    · rintro ⟨hb, hbody⟩
      exact .compound hb hbody
  | ret text? value => by
    rw [within, List.forall_mem_singleton, allowedAt_of_value rfl]
    constructor
    · rintro (_ | ⟨hb, hv⟩ | _)
      exact ⟨hb, hv⟩
    · rintro ⟨hb, hv⟩
      exact .ret hb hv
  | expression e => by
    rw [within, List.forall_mem_singleton, allowedAt_of_value rfl]
    constructor
    · rintro (_ | _ | ⟨hb, he⟩)
      exact ⟨hb, he⟩
    · rintro ⟨hb, he⟩
      exact .expression hb he

theorem nestsWithinAll_iff (b : Nat) :
    ∀ ss : List Statement, (∀ st ∈ ss, st.NestsWithin b) ↔ ∀ x ∈ withinAll b ss, AllowedAt x.1 x.2
  | [] => by simp [withinAll]
  | s :: ss => by
    rw [withinAll, List.forall_mem_cons, List.forall_mem_append, nestsWithin_iff b s,
      nestsWithinAll_iff b ss]

end

end Statement

def Local.statements : Local → List (Nat × Statement)
  | definition _ => []
  | statement s => s.within 0

def Item.statements : Item → List (Nat × Statement)
  | function _ body => body.flatMap Local.statements
  | _ => []

namespace TranslationUnit

def statements (u : TranslationUnit) : List (Nat × Statement) := u.flatMap Item.statements

/-- Parentheses, or statements, are nested too deeply. -/
inductive TooDeep (u : TranslationUnit) : Prop where
  | group {b p : Nat} {st : Statement} {e : Expression} : (b, st) ∈ statements u →
      st.value? = some e → p ∈ e.groups 0 → b + p ≥ 251 → TooDeep u
  | statement {b : Nat} {st : Statement} : (b, st) ∈ statements u → b ≥ 254 → TooDeep u
  | simple {b : Nat} {st : Statement} {e : Expression} : (b, st) ∈ statements u →
      st.value? = some e → b ≥ 253 → TooDeep u

theorem nestsWithin_iff {u : TranslationUnit} :
    u.NestsWithin ↔ ∀ x ∈ u.statements, Statement.AllowedAt x.1 x.2 := by
  have local_iff (x : Local) :
      x.NestsWithin ↔ ∀ y ∈ x.statements, Statement.AllowedAt y.1 y.2 := by
    cases x with
    | definition v => simp [Local.NestsWithin, Local.statements]
    | statement s => exact Statement.nestsWithin_iff 0 s
  have item_iff (i : Item) :
      i.NestsWithin ↔ ∀ y ∈ i.statements, Statement.AllowedAt y.1 y.2 := by
    cases i with
    | function g body =>
      rw [Item.NestsWithin, Item.statements, List.forall_mem_flatMap]
      exact forall₂_congr fun x _ => local_iff x
    | _ => simp [Item.NestsWithin, Item.statements]
  rw [NestsWithin, statements, List.forall_mem_flatMap]
  exact forall₂_congr fun i _ => item_iff i

theorem tooDeep_iff {u : TranslationUnit} : u.TooDeep ↔ ¬u.NestsWithin := by
  rw [nestsWithin_iff]
  constructor
  · rintro (⟨hm, hv, hp, hbound⟩ | ⟨hm, hbound⟩ | ⟨hm, hv, hbound⟩) hall
    · have hle := (hall _ hm).groups_le _ hv _ hp
      omega
    · have hle := (hall _ hm).le
      omega
    · have hle := (hall _ hm).value_le _ hv
      omega
  · intro hdeep
    by_contra hnot
    refine hdeep fun x hx => ⟨?_, fun e he => ?_, fun e he p hp => ?_⟩
    · by_contra hb
      exact hnot (.statement hx (by omega))
    · by_contra hb
      exact hnot (.simple hx he (by omega))
    · by_contra hb
      exact hnot (.group hx he hp (by omega))

end TranslationUnit

end MiniC.Syntax
