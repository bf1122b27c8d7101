import MiniC.Proofs.Parsing.Program
import MiniC.Proofs.Syntax.Nesting
import MiniC.Proofs.Syntax.Shapes

namespace MiniC

open Syntax

namespace Syntax

/-- `x` in so many pairs of parentheses. -/
def deepOperand : Nat → Expression
  | 0 => .leaf ⟨.ident, some "x"⟩ .nil
  | k + 1 => .group (deepOperand k) .nil

/-- `int f() { return ((x)); }` with so many pairs of parentheses. -/
def deepUnit (k : Nat) : TranslationUnit :=
  [.function ⟨⟨intType, some "f"⟩, []⟩ [.statement (.ret none (deepOperand k))]]

def deepTokens (k : Nat) : List Token :=
  [.plain .kwInt, .ident "f", .plain .lParen, .plain .rParen, .plain .lBrace, .plain .kwReturn] ++
    (List.replicate k (.plain .lParen) ++ [.ident "x"] ++ List.replicate k (.plain .rParen)) ++
    [.plain .semicolon, .plain .rBrace]

theorem deepOperand_canonical : ∀ k, (deepOperand k).Canonical
  | 0 => ⟨by decide, trivial⟩
  | 1 => by
    refine ⟨fun ls hls hty => ?_, deepOperand_canonical 0, trivial⟩
    cases ls with
    | nil => simp [Expression.ofLeaves, deepOperand] at hls
    | cons l ls =>
      obtain ⟨rfl, -⟩ := Expression.leaf.inj hls
      exact absurd (hty.isTypePart_of_mem List.mem_cons_self) (by decide)
  | k + 2 => by
    refine ⟨fun ls hls => ?_, deepOperand_canonical (k + 1), trivial⟩
    cases ls <;> simp [Expression.ofLeaves, deepOperand] at hls

theorem deepUnit_canonical (k : Nat) : (deepUnit k).Canonical := by
  intro i hi
  obtain rfl := List.mem_singleton.mp hi
  intro x hx
  obtain rfl := List.mem_singleton.mp hx
  exact ⟨.ret (deepOperand_canonical k), by simp⟩

theorem written_deepOperand : ∀ k, Written (deepOperand k).print
    (List.replicate k (.plain .lParen) ++ [.ident "x"] ++ List.replicate k (.plain .rParen))
  | 0 => .cons rfl .nil
  | k + 1 => by
    have hclose : Written [.mark .rParen] [Token.plain .rParen] := .cons rfl .nil
    have hinner := (written_deepOperand k).append hclose
    rw [List.replicate_succ, List.replicate_succ']
    simp only [List.cons_append, List.append_assoc] at hinner ⊢
    exact .cons rfl hinner

theorem written_deepUnit (k : Nat) : Written (deepUnit k).print (deepTokens k) := by
  have hhead : Written
      [.leaf ⟨.kwInt, none⟩, .leaf ⟨.ident, some "f"⟩, .mark .lParen, .mark .rParen, .mark .lBrace,
        .leaf ⟨.kwReturn, none⟩]
      [.plain .kwInt, .ident "f", .plain .lParen, .plain .rParen, .plain .lBrace,
        .plain .kwReturn] := by
    repeat' constructor
  have hclose : Written [.mark .semicolon, .mark .rBrace] [.plain .semicolon, .plain .rBrace] := by
    repeat' constructor
  have hall := (hhead.append (written_deepOperand k)).append hclose
  simpa [deepUnit, TranslationUnit.print, Item.print, Signature.print, Variable.print,
    Variable.printAll, TypeName.print, Local.print, Statement.print, intType, Variable.name,
    deepTokens] using hall

theorem programTokens_deepTokens (k : Nat) : programTokens (deepTokens k) = deepTokens k := by
  have hall : (deepTokens k).filter (·.isSignificant) = deepTokens k := by
    simp [deepTokens, Token.isSignificant, TokenKind.isSignificant, Token.plain, Token.ident]
  rw [(deepUnit_canonical k).programTokens_eq (hall.symm ▸ written_deepUnit k), hall]

theorem deepOperand_nestsWithin_iff {k p : Nat} :
    (deepOperand k).NestsWithin 0 p ↔ k = 0 ∨ p + k ≤ 251 := by
  induction k generalizing p with
  | zero => simp [deepOperand, Expression.NestsWithin]
  | succ k ih =>
    simp only [deepOperand, Expression.NestsWithin, ih, and_true]
    omega

theorem deepUnit_tooDeep_iff {k : Nat} : (deepUnit k).TooDeep ↔ k ≥ 252 := by
  have hvalue := deepOperand_nestsWithin_iff (k := k) (p := 0)
  have hret : (Statement.ret none (deepOperand k)).NestsWithin 0 ↔ k ≤ 251 := by
    constructor
    · rintro (_ | ⟨-, hv⟩ | _)
      have hk := hvalue.mp hv
      omega
    · intro hk
      exact .ret (by decide) (hvalue.mpr (by omega))
  have hunit : (deepUnit k).NestsWithin ↔ k ≤ 251 := by
    simp [deepUnit, TranslationUnit.NestsWithin, Item.NestsWithin, Local.NestsWithin, hret]
  rw [TranslationUnit.tooDeep_iff, hunit]
  omega

end Syntax

/-- A parse is given up for the limit exactly where without one a rule would be tried with as many
others in progress as there may be; every other parse is, in each step, the one without a limit. -/
theorem translationUnit_limit_exact (tokens : List Token) (cursor : Cursor) (arena : Arena)
    (interner : Interner) (hf : interner.Faithful) :
    let s : State := ⟨Reader.ofTokens tokens cursor, 0, arena, interner, []⟩
    let limited := Parser.translationUnit (some nestingLimit) s
    let free := Parser.translationUnit none s
    (∀ line, limited.outcome = .fatal (.nestingTooDeep line) ↔
      free.final.log.reverse.findSome? (Event.enteredAt? nestingLimit) = some line) ∧
    ((∀ line, limited.outcome ≠ .fatal (.nestingTooDeep line)) → limited = free) ∧
    ∀ n, free.outcome = .matched n →
      ∃ u : TranslationUnit, n.shape = u.shape ∧ u.Canonical ∧
        Written u.print (programTokens (tokens.drop cursor.index)) ∧
        ((∃ line, limited.outcome = .fatal (.nestingTooDeep line)) ↔ u.TooDeep) := by
  intro s limited free
  have hlim : limited.Limited nestingLimit s free := Parser.translationUnit_limited (Nat.zero_le _)
  have hlog : free.final.log = free.final.log ++ s.log := (List.append_nil _).symm
  refine ⟨hlim.nestingTooDeep_iff hlog, hlim.eq_of_ne, fun n hn => ?_⟩
  obtain ⟨u, hu, hw, hshape, -, -⟩ :=
    Parser.translationUnit_reads (s := s) (t := free.final) hf (by rw [← hn])
  refine ⟨u, hshape, hu, hw, ?_⟩
  rw [TranslationUnit.tooDeep_iff]
  constructor
  · -- a tree for which there is room would be read with the limit as well
    rintro ⟨line, hline⟩ hnest
    obtain ⟨m, hm, -⟩ := Parser.translationUnit_complete hu (s := s) room_nestingLimit
      (fun i hi => (hnest i hi).fits) hf hw
    rw [show limited.outcome = .matched m from hm] at hline
    simp at hline
  · -- a parse that is not given up finds room for all that it reads
    intro hdeep
    by_contra hno
    have heq : limited = free := hlim.eq_of_ne (by simpa using hno)
    have hread : Parser.translationUnit (some nestingLimit) s = ⟨.matched n, free.final⟩ := by
      rw [← hn]
      exact heq
    obtain ⟨u', -, -, hshape', -, hfits⟩ := Parser.translationUnit_reads hf hread
    obtain rfl : u = u' := TranslationUnit.shape_injective (hshape.symm.trans hshape')
    exact hdeep fun i hi => Item.fits_iff.mp (hfits i hi)

/-- One pair of parentheses more than there is room for, which is read without a limit. -/
theorem translationUnit_limit_exact_parentheses :
    let s : State :=
      ⟨Reader.ofTokens (deepTokens 252) .start, 0, .ofCapacity .packed 4096, .empty, []⟩
    Interner.empty.Faithful ∧ (∃ n, (Parser.translationUnit none s).outcome = .matched n) ∧
      ∃ line, (Parser.translationUnit (some nestingLimit) s).outcome =
          .fatal (.nestingTooDeep line) ∧
        (Parser.translationUnit none s).final.log.reverse.findSome?
          (Event.enteredAt? nestingLimit) = some line := by
  intro s
  have hu := deepUnit_canonical 252
  have hw : Written (deepUnit 252).print s.pending := by
    rw [show s.pending = deepTokens 252 from programTokens_deepTokens 252]
    exact written_deepUnit 252
  obtain ⟨n, hn, hshape⟩ : ∃ n, (Parser.translationUnit none s).outcome = .matched n ∧
      n.shape = (deepUnit 252).shape :=
    Parser.translationUnit_complete hu (room_none _) (fun i hi => (hu i hi).fits_none _)
      Interner.faithful_empty hw
  obtain ⟨hline, -, htree⟩ := translationUnit_limit_exact (deepTokens 252) .start
    (.ofCapacity .packed 4096) .empty Interner.faithful_empty
  obtain ⟨u, hu', -, -, hdeep⟩ := htree n hn
  obtain rfl : u = deepUnit 252 := TranslationUnit.shape_injective (hu'.symm.trans hshape)
  obtain ⟨line, he⟩ := hdeep.mpr (deepUnit_tooDeep_iff.mpr (Nat.le_refl 252))
  exact ⟨Interner.faithful_empty, ⟨n, hn⟩, line, he, (hline line).mp he⟩

end MiniC
