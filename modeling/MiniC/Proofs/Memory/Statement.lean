import MiniC.Proofs.Memory.Expression
import MiniC.Proofs.Parsing.Function

namespace MiniC.Parser

open Grammar

variable {pool : List Token} {limit : Option Nat} {s t : State} {c most : Nat} {d : Draft}

theorem within_expressionStatement (hs : s.pending ⊆ pool)
    (hm : s.charge pool + (c + d.credit + 100) + 1024 * s.left ≤
      most + 200 * s.run isVariablePart) :
    ((expression limit >>= fun e => expect .semicolon >>= fun _ => append d e) s).Within
      (.full pool) most fun d' => c + 900 + d'.credit := by
  refine within_bind (within_expression (c := c + d.credit) hs hm) fun e t _ ht hk => ?_
  refine Spends.andThen (spends_expect rfl (by simp) (c + d.credit)) (fun _ => ?_) t most ht hk
  exact (spends_append d e (c + 900)).mono
    (show c + 900 + d.credit + 48 ≤ c + d.credit + 1024 by omega) fun _ => Nat.le_refl _

theorem within_simpleStatement (hs : s.pending ⊆ pool)
    (hm : s.charge pool + (c + d.credit + 100) + 1024 * s.left ≤
      most + 200 * s.run isVariablePart) :
    (simpleStatement limit d s).Within (.full pool) most fun d' => c + 900 + d'.credit := by
  have hle := s.run_le_left isVariablePart
  cases hc : Construct.ofStatement? s.nextKind with
  | some construct =>
    unfold simpleStatement
    rw [hc]
    exact .fatal (show s.charge pool ≤ most by omega)
  | none =>
    rw [simpleStatement_of_plain d hc]
    by_cases hk : s.nextKind = .kwReturn
    · have hne : s.nextKind ≠ .eof := by simp [hk]
      have hpending := s.pending_addLeaf_eq d
      have hcharge := State.charge_addLeaf_le d hs hne
      have hrun : s.run isVariablePart = 0 := State.run_eq_zero (by rw [hk]; rfl)
      have hleft := State.left_eq_succ hne
      have hleft' := State.left_of_pending hpending
      rw [bind_of_matched (returnLeaf_of_return d hk)]
      exact within_expressionStatement (hpending ▸ State.pending_skip_subset hs hne) (by omega)
    · rw [bind_of_matched (returnLeaf_of_ne d hk)]
      exact within_expressionStatement hs hm

/-- From `s` on, the statements of a compound one take no more than their tokens pay. -/
def CompoundWithin (pool : List Token) (limit : Option Nat) (s : State) : Prop :=
  ∀ (d : Draft) (c most : Nat), s.pending ⊆ pool →
    s.charge pool + (c + d.credit + 200) + 1024 * s.left ≤ most →
    (compound limit d s).Within (.full pool) most fun d' => c + 900 + d'.credit

theorem within_statement_of (hs : s.pending ⊆ pool)
    (hcompound : ∀ t : State, t.left < s.left → CompoundWithin pool limit t)
    (hm : s.charge pool + (c + 200) + 1024 * s.left ≤ most + 200 * s.run isVariablePart) :
    (statement limit s).Within (.full pool) most fun _ => c + 900 := by
  have hle := s.run_le_left isVariablePart
  rw [statement_eq]
  refine within_tryRule (show s.charge pool ≤ most by omega) ?_
  let opened := (s.enter .statement).openNode .statement 2
  have hopen : opened.2.charge pool ≤ s.charge pool + 100 :=
    (s.enter .statement).charge_openNode_le _ .statement (by decide)
  have hcredit : opened.1.credit = 0 := Draft.credit_empty _ _ _
  have hleft : opened.2.left = s.left := rfl
  have hrun : opened.2.run isVariablePart = s.run isVariablePart := rfl
  have hparts : (statementParts limit opened.1 opened.2).Within (.full pool) most
      fun d' => c + 900 + d'.credit := by
    unfold statementParts
    split
    · next hb =>
      have hne : opened.2.nextKind ≠ .eof := by simp [hb]
      have hzero : s.run isVariablePart = 0 := State.run_eq_zero (hb ▸ rfl)
      have hskip := State.left_eq_succ hne
      have hcharge : opened.2.skip.charge pool = opened.2.charge pool := rfl
      exact hcompound _ (by omega) _ c most (State.pending_skip_subset hs hne) (by omega)
    · exact within_simpleStatement hs (by omega)
  refine within_bind (p := statementParts limit opened.1) (s := opened.2) hparts
    fun d t _ ht hk => ?_
  exact .matched ht (by omega)

theorem compound_within (pool : List Token) (limit : Option Nat) (s : State) :
    CompoundWithin pool limit s := by
  induction hn : s.left using Nat.strongRecOn generalizing s with
  | ind n ih =>
    subst hn
    have ih (t : State) (ht : t.left < s.left) : CompoundWithin pool limit t := ih t.left ht t rfl
    intro d c most hs hm
    rw [compound_eq]
    split
    · next hb =>
      have hne : s.nextKind ≠ .eof := by simp [hb]
      have hleft := State.left_eq_succ hne
      refine .matched (State.pending_skip_subset hs hne) ?_
      rw [Tariff.full_bill, State.charge_skip]
      omega
    · have hstatement : (statement limit s).Within (.full pool) most
          fun _ => c + 200 + d.credit + 48 := by
        refine (within_statement_of (c := c + d.credit) hs ih (by omega)).mono fun _ => ?_
        omega
      refine within_child hstatement fun inner u hu hpending hk => ?_
      have hlt : u.left < s.left := (consumes_statement limit).lt hu
      rw [Tariff.full_bill] at hk
      exact ih (u.append d inner).2 hlt (u.append d inner).1 c most hpending (by omega)

theorem within_statement (hs : s.pending ⊆ pool)
    (hm : s.charge pool + (c + 200) + 1024 * s.left ≤ most + 200 * s.run isVariablePart) :
    (statement limit s).Within (.full pool) most fun _ => c + 900 :=
  within_statement_of hs (fun t _ => compound_within pool limit t) hm

/-- A statement is read behind a vain try to read the definition of a variable. -/
theorem spends_bodyItem (pool : List Token) (limit : Option Nat) (c : Nat) :
    Spends (.full pool) (c + 300) (bodyItem limit) fun _ => c + 700 := by
  intro s most hs hm
  rw [Tariff.full_bill] at hm
  have hdefinition : (variableDefinition limit s).Within (.full pool) most fun _ => c + 700 := by
    refine spends_variableDefinition pool limit c s most hs ?_
    rw [Tariff.full_bill]
    omega
  refine within_orElse hdefinition fun t ht => ?_
  obtain ⟨ht, hleft, hrun, hcharge⟩ := variable_mismatch
    (wastes_variableDefinition (Tariff.ofVariables_forVariables pool) limit) hs ht
  have hstatement : (statement limit t).Within (.full pool) most fun _ => c + 900 :=
    within_statement ht (by omega)
  exact hstatement.mono fun _ => Nat.add_le_add_left (by decide) c

theorem spends_bodyItems (pool : List Token) (limit : Option Nat) (d : Draft) (c : Nat) :
    Spends (.full pool) (c + d.credit + 300) (bodyItems limit d) fun d' => c + d'.credit := by
  intro s most hs hm
  induction hn : s.left using Nat.strongRecOn generalizing d s with
  | ind n ih =>
    subst hn
    rw [bodyItems_eq]
    split
    · exact .matched hs (by omega)
    · have hspare : c + 300 + d.credit + 48 ≤ c + d.credit + 700 := by omega
      have hitem : (bodyItem limit s).Within (.full pool) most fun _ => c + 300 + d.credit + 48 :=
        (spends_bodyItem pool limit (c + d.credit) s most hs hm).mono fun _ => hspare
      refine within_child hitem fun item u hu hpending hk => ?_
      have hlt : u.left < s.left := (consumes_bodyItem limit).lt hu
      rw [Nat.add_right_comm c 300] at hk
      exact ih _ hlt (u.append d item).1 (u.append d item).2 hpending hk rfl

theorem spends_functionBody (pool : List Token) (limit : Option Nat) (c : Nat) :
    Spends (.full pool) (c + 400) (functionBody limit) fun _ => c := by
  refine .tryRule ?_ limit .functionBody
  refine (spends_openNode .statementList (by decide) (c + 300)).andThen fun body => ?_
  refine ((spends_bodyItems pool limit body c).mono (by omega) fun _ => Nat.le_refl _).andThen
    fun body => ?_
  exact (spends_pure body.close fun _ => c).mono (Nat.le_add_right _ _) fun _ => Nat.le_refl _

end MiniC.Parser
