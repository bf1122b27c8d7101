import MiniC.Proofs.Memory.Statement
import MiniC.Proofs.Parsing.Program

namespace MiniC

open Grammar

/-- What the head of an item is read from. -/
def Grammar.isHeadPart (k : TokenKind) : Bool :=
  isVariablePart k || k == .lParen || k == .rParen || k == .comma

/-- What is paid for one attempt to read the head of an item. -/
def Tariff.ofHeads (pool : List Token) : Tariff := ⟨pool, isHeadPart, 200⟩

theorem Tariff.ofHeads_forSignatures (pool : List Token) : (ofHeads pool).ForSignatures :=
  ⟨⟨fun k hk => by simp [ofHeads, isHeadPart, isVariablePart, hk], rfl, Nat.le_refl _⟩,
    rfl, rfl, rfl⟩

namespace Parser

variable {pool : List Token} {limit : Option Nat} {s t : State} {c most : Nat}

theorem keeps_variableParts (limit : Option Nat) {lead : Parser Unit} (hlead : Keeps lead) :
    Keeps (variableParts limit lead) := by
  refine keeps_nextLine.andThen fun _ => ?_
  refine hlead.andThen fun _ => ?_
  refine (keeps_typeName limit).andThen fun _ => ?_
  exact keeps_identifier.andThen fun _ => keeps_pure _

theorem keeps_signatureParts (limit : Option Nat) : Keeps (signatureParts limit) := by
  refine keeps_nextLine.andThen fun _ => ?_
  refine (keeps_typeName limit).andThen fun _ => ?_
  refine keeps_identifier.andThen fun _ => ?_
  refine (keeps_expect (by simp)).andThen fun _ => ?_
  refine (keeps_parameterList limit).andThen fun _ => ?_
  exact (keeps_expect (by simp)).andThen fun _ => keeps_pure _

section TopLevel

variable (hs : s.pending ⊆ pool)
  (hm : s.charge pool + (c + 100) + 1024 * s.left ≤ most + 824 * s.run isHeadPart)

include hs hm

theorem within_head {α : Type} {rule : Rule} {p : Parser α} {g : α → Parser Node} {k : TokenKind}
    (hp : Spends (.ofHeads pool) (c + 100) p fun _ => c) (hkeeps : Keeps p)
    (hstop : isHeadPart k = false) (hne : k ≠ .eof)
    (hg : ∀ a, Spends (.full pool) (c + 1024) (g a) fun _ => c + 700) :
    (tryRule limit rule (p >>= fun a => expect k >>= fun _ => g a) s).Within (.full pool) most
      fun _ => c + 700 := by
  have hle := s.run_le_left isHeadPart
  have hrate : (Tariff.ofHeads pool).rate ≤ 1024 := Nat.le_of_ble_eq_true rfl
  refine within_tryRule (show s.charge pool ≤ most by omega) ?_
  exact within_of_stop (T := .ofHeads pool) hp hkeeps hstop hne hrate hg hs hm

theorem within_variableDefinition :
    (variableDefinition limit s).Within (.full pool) most fun _ => c + 700 := by
  have hT := (Tariff.ofHeads_forSignatures pool).toForVariables
  have hparts := spends_variableParts hT c limit (spends_pure () fun _ => c + 100)
  rw [variableDefinition_eq]
  exact within_head hs hm (hparts.mono (Nat.le_refl _) fun _ => Nat.le_add_right _ _)
    (keeps_variableParts limit (keeps_pure ())) rfl (by simp)
    fun x => spends_paidNode pool .varDef x.1 (by simp) c

theorem within_functionDeclaration :
    (functionDeclaration limit s).Within (.full pool) most fun _ => c + 700 := by
  have hT := Tariff.ofHeads_forSignatures pool
  rw [functionDeclaration_eq]
  exact within_head hs hm (spends_signatureParts hT limit c) (keeps_signatureParts limit) rfl
    (by simp) fun x => spends_paidNode pool .funcDecl x.1 (by simp) c

theorem within_functionDefinition :
    (functionDefinition limit s).Within (.full pool) most fun _ => c + 700 := by
  have hT := Tariff.ofHeads_forSignatures pool
  rw [functionDefinition_eq]
  refine within_head hs hm (spends_signatureParts hT limit c) (keeps_signatureParts limit) rfl
    (by simp) fun x => ?_
  refine ((spends_functionBody pool limit c).mono (Nat.add_le_add_left (by decide) c)
    fun _ => Nat.le_refl _).andThen fun body => ?_
  exact (spends_expect rfl (by simp) c).andThen fun _ =>
    spends_paidNode pool .funcDef x.1 (by simp) c

end TopLevel

theorem within_refusedDeclaration (h : s.charge pool ≤ most) :
    (refusedDeclaration s).Within (.full pool) most fun _ => c := by
  unfold refusedDeclaration
  split
  · exact .fatal h
  · exact .mismatch h

theorem head_mismatch {α : Type} {p : Parser α} {rule : Rule}
    (hp : Wastes (.ofHeads pool) 100 (tryRule limit rule p)) (hs : s.pending ⊆ pool)
    (h : tryRule limit rule p s = ⟨.mismatch, t⟩) :
    t.pending ⊆ pool ∧ t.left = s.left ∧ t.run isHeadPart = s.run isHeadPart ∧
      t.charge pool ≤ s.charge pool + 200 * s.run isHeadPart + 100 :=
  hp.of_mismatch hs h

/-- Of the rules for an item those that fail are paid for by the one that matches. -/
theorem spends_topLevel (pool : List Token) (limit : Option Nat) (c : Nat) :
    Spends (.full pool) (c + 400) (topLevel limit) fun _ => c + 700 := by
  intro s most hs hm
  have hT := Tariff.ofHeads_forSignatures pool
  have hdeclaration : (variableDeclaration limit s).Within (.full pool) most fun _ => c + 700 :=
    spends_variableDeclaration pool limit c s most hs (by omega)
  rw [Tariff.full_bill] at hm
  refine within_orElse hdeclaration fun s₁ h₁ => ?_
  obtain ⟨hs₁, hleft₁, hrun₁, hcharge₁⟩ :=
    head_mismatch (wastes_variableDeclaration hT.toForVariables limit) hs h₁
  have hdefinition : (variableDefinition limit s₁).Within (.full pool) most fun _ => c + 700 :=
    within_variableDefinition hs₁ (by omega)
  refine within_orElse hdefinition fun s₂ h₂ => ?_
  obtain ⟨hs₂, hleft₂, hrun₂, hcharge₂⟩ :=
    head_mismatch (wastes_variableDefinition hT.toForVariables limit) hs₁ h₂
  have hprototype : (functionDeclaration limit s₂).Within (.full pool) most fun _ => c + 700 :=
    within_functionDeclaration hs₂ (by omega)
  refine within_orElse hprototype fun s₃ h₃ => ?_
  obtain ⟨hs₃, hleft₃, hrun₃, hcharge₃⟩ :=
    head_mismatch (wastes_functionDeclaration hT limit) hs₂ h₃
  have hfunction : (functionDefinition limit s₃).Within (.full pool) most fun _ => c + 700 :=
    within_functionDefinition hs₃ (by omega)
  refine within_orElse hfunction fun s₄ h₄ => ?_
  rw [h₄] at hfunction
  exact within_refusedDeclaration hfunction.charge_le

/-- Every item leaves over what is needed before the next one. -/
theorem spends_unitItems (pool : List Token) (limit : Option Nat) (root : Draft) (c : Nat) :
    Spends (.full pool) (c + root.credit + 400) (unitItems limit root) fun d => c + d.credit := by
  intro s most hs hm
  induction hn : s.left using Nat.strongRecOn generalizing root s with
  | ind n ih =>
    subst hn
    rw [unitItems_eq]
    split
    · exact .matched hs (by omega)
    · have hspare : c + 400 + root.credit + 48 ≤ c + root.credit + 700 := by omega
      have hitem : (topLevel limit s).Within (.full pool) most
          fun _ => c + 400 + root.credit + 48 :=
        (spends_topLevel pool limit (c + root.credit) s most hs hm).mono fun _ => hspare
      have hread : ((topLevel limit).orElse rejectUnit s).Within (.full pool) most
          fun _ => c + 400 + root.credit + 48 := by
        refine within_orElse hitem fun t ht => ?_
        rw [ht] at hitem
        exact .fatal hitem.charge_le
      refine within_child hread fun item u hu hpending hk => ?_
      have hlt : u.left < s.left := ((consumes_topLevel limit).orElse consumes_rejectUnit).lt hu
      rw [Nat.add_right_comm c 400] at hk
      exact ih _ hlt (u.append root item).1 (u.append root item).2 hpending hk rfl

theorem spends_translationUnit (pool : List Token) (limit : Option Nat) (c : Nat) :
    Spends (.full pool) (c + 500) (translationUnit limit) fun _ => c := by
  refine (spends_openNode .translationUnit (by decide) (c + 400)).andThen fun root => ?_
  have hitems : Spends (.full pool) (c + 400 + root.credit) (unitItems limit root)
      fun d => c + d.credit :=
    (spends_unitItems pool limit root c).mono (Nat.le_of_eq (Nat.add_right_comm _ _ _)) fun _ =>
      Nat.le_refl _
  refine hitems.andThen fun root => ?_
  have hrecord : Spends (.full pool) (c + root.credit)
      (record fun s => .unitParsed root.children.size s.reader.line) fun _ => c :=
    fun s most hs hm => .matched hs (Nat.le_trans (Nat.add_le_add_left (Nat.le_add_right _ _) _) hm)
  exact hrecord.andThen fun _ => spends_pure root.close fun _ => c

end Parser

/-- However often a parse tries in vain, and however it ends, it takes no more of the arena than is
linear in the tokens that it can read and the texts that they carry. -/
theorem allocated_translationUnit_le (tokens : List Token) (cursor : Cursor) (depth : Nat)
    (arena : Arena) (interner : Interner) (log : List Event) :
    let s : State := ⟨Reader.ofTokens tokens cursor, depth, arena, interner, log⟩
    let read := programTokens (tokens.drop cursor.index)
    (Parser.translationUnit (some nestingLimit) s).final.arena.counts.allocated ≤
      arena.counts.allocated + (1024 * (read.length + 1) + textSize read) := by
  intro s read
  let parsed := Parser.translationUnit (some nestingLimit) s
  have hwithin : parsed.Within (.full read) ((Tariff.full read).bill s + 500) fun _ => 0 :=
    Parser.spends_translationUnit read _ 0 s _ (fun _ h => h) (Nat.le_refl _)
  have hfinal : parsed.final.arena.counts.allocated ≤ parsed.final.charge read :=
    Nat.le_add_right _ _
  have hcharge : parsed.final.charge read ≤ (Tariff.full read).bill s + 500 := hwithin.charge_le
  have hbill : (Tariff.full read).bill s = s.charge read + 1024 * read.length :=
    Tariff.full_bill read s
  have hstart : s.charge read = arena.counts.allocated + interner.missing (identTexts read) := rfl
  have hmissing : interner.missing (identTexts read) ≤ textSize read :=
    interner.missing_le (identTexts read)
  change parsed.final.arena.counts.allocated ≤ _
  omega

end MiniC
