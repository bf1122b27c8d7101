import MiniC.Proofs.Memory.Declaration
import MiniC.Proofs.Parsing.Expression

namespace MiniC

open Grammar

/-- What the type and the name of a variable are read from. -/
def Grammar.isVariablePart (k : TokenKind) : Bool := isTypePart k || k == .ident

/-- What is paid for attempts to read a variable. -/
def Tariff.ofVariables (pool : List Token) : Tariff := ⟨pool, isVariablePart, 200⟩

theorem Tariff.ofVariables_forVariables (pool : List Token) : (ofVariables pool).ForVariables :=
  ⟨fun k hk => by simp [ofVariables, isVariablePart, hk], rfl, Nat.le_refl _⟩

theorem TokenKind.isVariablePart_eq_false {k : TokenKind} (h : k.expressionPart ≠ .operand) :
    isVariablePart k = false := by
  revert h
  cases k <;> decide

namespace Parser

variable {pool : List Token} {limit : Option Nat} {s t : State} {c most : Nat}

theorem wastes_cast (pool : List Token) (limit : Option Nat) :
    Wastes (.ofVariables pool) 100 (cast limit) :=
  .tryRule (wastes_of_stop (spends_typeName (Tariff.ofVariables_forVariables pool) 0 limit)
    fun _ _ => ⟨_, rfl⟩) _ _

theorem spends_cast (pool : List Token) (limit : Option Nat) (c : Nat) :
    Spends (.full pool) (c + 100) (cast limit) fun _ => c := by
  have hT := Tariff.full_forSignatures pool
  refine .tryRule ?_ limit .cast
  refine (spends_typeName hT.toForVariables c limit).andThen fun ty => ?_
  refine (spends_expect hT.rParen (by simp) c).andThen fun _ => ?_
  exact (spends_pure ty.toCast fun _ => c).mono (Nat.le_add_right _ _) fun _ => Nat.le_refl _

theorem variable_mismatch {α : Type} {p : Parser α} {rule : Rule}
    (hp : Wastes (.ofVariables pool) 100 (tryRule limit rule p)) (hs : s.pending ⊆ pool)
    (h : tryRule limit rule p s = ⟨.mismatch, t⟩) :
    t.pending ⊆ pool ∧ t.left = s.left ∧ t.run isVariablePart = s.run isVariablePart ∧
      t.charge pool ≤ s.charge pool + 200 * s.run isVariablePart + 100 :=
  hp.of_mismatch hs h

/-- From `s` on, operands take no more than their tokens pay, and leave over what a vain try to read
a variable there has taken. -/
def OperandsWithin (pool : List Token) (limit : Option Nat) (s : State) : Prop :=
  ∀ (d : Draft) (c most : Nat), s.pending ⊆ pool →
    s.charge pool + (c + d.credit) + 1024 * s.left ≤ most + 200 * s.run isVariablePart →
    (operands limit d s).Within (.full pool) most fun d' => c + d'.credit

theorem within_expression_of (hs : s.pending ⊆ pool)
    (hoperands : ∀ t : State, t.left ≤ s.left → OperandsWithin pool limit t)
    (hm : s.charge pool + (c + 100) + 1024 * s.left ≤ most + 200 * s.run isVariablePart) :
    (expression limit s).Within (.full pool) most fun _ => c := by
  have hrun := s.run_le_left isVariablePart
  rw [expression_eq]
  refine within_tryRule (show s.charge pool ≤ most by omega) ?_
  let opened := (s.enter .expression).openNode .expression 4
  have hopen : opened.2.charge pool ≤ s.charge pool + 100 :=
    (s.enter .expression).charge_openNode_le _ .expression (by decide)
  have hcredit : opened.1.credit = 0 := Draft.credit_empty _ _ _
  have hleft : opened.2.left = s.left := rfl
  have hrun : opened.2.run isVariablePart = s.run isVariablePart := rfl
  refine within_bind (p := operands limit opened.1) (s := opened.2)
    (hoperands opened.2 (Nat.le_refl _) opened.1 c most hs (by omega)) fun d t _ ht hk => ?_
  exact .matched ht (by omega)

/-- A group is read as an expression behind a vain try to read a cast. -/
theorem within_inner (hs : s.pending ⊆ pool)
    (hoperands : ∀ t : State, t.left ≤ s.left → OperandsWithin pool limit t)
    (hm : s.charge pool + (c + 200) + 1024 * s.left ≤ most) :
    ((cast limit).orElse (group limit) s).Within (.full pool) most fun _ => c := by
  have hT := Tariff.full_forSignatures pool
  have hcast : (cast limit s).Within (.full pool) most fun _ => c := by
    refine spends_cast pool limit c s most hs ?_
    rw [Tariff.full_bill]
    omega
  refine within_orElse hcast fun t ht => ?_
  obtain ⟨ht, hleft, hrun, hcharge⟩ := variable_mismatch (wastes_cast pool limit) hs ht
  have hexpression : (expression limit t).Within (.full pool) most fun _ => c :=
    within_expression_of ht (fun u hu => hoperands u (hleft ▸ hu)) (by omega)
  refine within_bind hexpression fun inner u _ hu hk => ?_
  refine Spends.andThen (spends_expect hT.rParen (by simp) c) (fun _ => ?_) u most hu hk
  exact (spends_pure inner fun _ => c).mono (Nat.le_add_right _ _) fun _ => Nat.le_refl _

theorem operands_within (pool : List Token) (limit : Option Nat) (s : State) :
    OperandsWithin pool limit s := by
  induction hn : s.left using Nat.strongRecOn generalizing s with
  | ind n ih =>
    subst hn
    have ih (t : State) (ht : t.left < s.left) : OperandsWithin pool limit t := ih t.left ht t rfl
    intro d c most hs hm
    have hle := s.run_le_left isVariablePart
    rw [operands_eq]
    split
    · next hk =>
      have hrun := State.run_eq_zero (s := s) (TokenKind.isVariablePart_eq_false (by simp [hk]))
      refine .matched hs ?_
      rw [Tariff.full_bill]
      omega
    · exact .mismatch (show s.charge pool ≤ most by omega)
    · next hk =>
      have hne := TokenKind.ne_eof_of_operand hk
      have hpending := s.pending_addLeaf_eq d
      have hcharge := State.charge_addLeaf_le d hs hne
      have hleft := State.left_eq_succ hne
      have hrun := State.run_le_succ isVariablePart hne
      have hleft' := State.left_of_pending hpending
      have hrun' := State.run_of_pending hpending isVariablePart
      exact ih _ (by omega) _ c most (hpending ▸ State.pending_skip_subset hs hne) (by omega)
    · next hk =>
      have hne := TokenKind.ne_eof_of_group hk
      have hrun := State.run_eq_zero (s := s) (TokenKind.isVariablePart_eq_false (by simp [hk]))
      have hleft := State.left_eq_succ hne
      -- the tokens of a group pay also for the cast that is tried before it
      have hinner : ((cast limit).orElse (group limit) s.skip).Within (.full pool) most
          fun _ => c + d.credit + 48 := by
        refine within_inner (State.pending_skip_subset hs hne) (fun t ht => ih t (by omega)) ?_
        rw [State.charge_skip]
        omega
      refine within_child hinner fun inner u hu hpending hk => ?_
      have hread := (((keeps_cast limit).orElse (keeps_group limit)).of_eq hu).left_le
      have hpushed : (u.append d inner).2.left = u.left := rfl
      rw [Tariff.full_bill] at hk
      exact ih _ (by omega) (u.append d inner).1 c most hpending (by omega)

theorem within_expression (hs : s.pending ⊆ pool)
    (hm : s.charge pool + (c + 100) + 1024 * s.left ≤ most + 200 * s.run isVariablePart) :
    (expression limit s).Within (.full pool) most fun _ => c :=
  within_expression_of hs (fun t _ => operands_within pool limit t) hm

end Parser

end MiniC
