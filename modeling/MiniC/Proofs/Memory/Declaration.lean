import MiniC.Proofs.Memory.Spending

namespace MiniC.Parser

open Grammar

variable {α β : Type} {T : Tariff} {c : Nat} {limit : Option Nat}

theorem spends_noQualifier (c : Nat) : Spends T c noQualifier fun _ => c := by
  intro s most hs hm
  unfold noQualifier
  split
  · exact .mismatch (Nat.le_trans (T.charge_le_bill s) (by omega))
  · exact .matched hs hm

section TypeName

variable (hT : T.ForVariables) (ty : Draft) (c : Nat)

include hT

theorem covers_qualifier (k : TokenKind) (hk : k.isQualifier = true) : T.covers k = true :=
  hT.typePart k (by simp [isTypePart, hk])

theorem spends_innerQualifier (qualified : Bool) :
    Spends T (c + ty.credit) (innerQualifier qualified ty) fun d => c + d.credit := by
  unfold innerQualifier
  split
  · exact (spends_noQualifier _).andThen fun _ => spends_pure ty fun d => c + d.credit
  · exact spends_optionalLeaf hT rfl (covers_qualifier hT) ty c

theorem spends_stars : Spends T (c + ty.credit) (step (stars ty)) fun d => c + d.credit := by
  intro s most hs hm
  change Result.Within T most _ ⟨.matched (stars ty s).1, (stars ty s).2⟩
  fun_induction stars ty s with
  | case1 ty s hk pushed ih =>
    have hne : s.nextKind ≠ .eof := by simp [hk]
    have hbill := T.bill_addLeaf_le hT ty hs (hk ▸ hT.typePart .star rfl) hne
    have hpending : pushed.2.pending ⊆ T.pool :=
      (s.pending_addLeaf_eq ty) ▸ State.pending_skip_subset hs hne
    have hpushed : T.bill pushed.2 + (c + pushed.1.credit) ≤ most := by
      change T.bill (s.addLeaf ty).2 + (c + (s.addLeaf ty).1.credit) ≤ most
      omega
    exact ih hpending hpushed
  | case2 ty s _ => exact .matched hs hm

theorem spends_outerQualifier :
    Spends T (c + ty.credit) (outerQualifier ty) fun d => c + d.credit := by
  intro s most hs hm
  unfold outerQualifier
  split
  · refine Spends.andThen (spends_requiredLeaf hT rfl (covers_qualifier hT) ty c) (fun ty => ?_)
      s most hs hm
    exact (spends_noQualifier _).andThen fun _ => spends_pure ty fun d => c + d.credit
  · exact .matched hs hm

theorem spends_pointer : Spends T (c + ty.credit) (pointer ty) fun d => c + d.credit := by
  intro s most hs hm
  unfold pointer
  split
  · have hstars := (spends_stars hT ty c).andThen fun ty => spends_outerQualifier hT ty c
    exact hstars s most hs hm
  · exact .matched hs hm

/-- A type takes a node and what its tokens pay for. -/
theorem spends_typeName (limit : Option Nat) : Spends T (c + 100) (typeName limit) fun _ => c := by
  refine .tryRule ?_ limit .type
  refine (spends_openNode .type (by decide) c).andThen fun ty => ?_
  refine (spends_optionalLeaf hT rfl (fun k hk => hT.typePart k (by simp [isTypePart, hk]))
    ty c).andThen fun ty => ?_
  refine (spends_nextKind _).andThen fun kind => ?_
  refine (spends_optionalLeaf hT rfl (covers_qualifier hT) ty c).andThen fun ty => ?_
  refine (spends_optionalLeaf hT rfl (fun k hk => hT.typePart k (by simp [isTypePart, hk]))
    ty c).andThen fun ty => ?_
  refine (spends_requiredLeaf hT rfl (fun k hk => hT.typePart k (by simp [isTypePart, hk]))
    ty c).andThen fun ty => ?_
  refine (spends_innerQualifier hT ty c _).andThen fun ty => ?_
  refine (spends_pointer hT ty c).andThen fun ty => ?_
  exact (spends_pure ty.close fun _ => c).mono (Nat.le_add_right _ _) fun _ => Nat.le_refl _

end TypeName

theorem bind_bind (p : Parser α) (f : α → Parser β) {γ : Type} (g : β → Parser γ) :
    (p >>= f) >>= g = p >>= fun a => f a >>= g := by
  funext s
  simp only [bind_apply]
  rcases p s with ⟨_ | _ | _, _⟩ <;> rfl

def variableParts (limit : Option Nat) (lead : Parser Unit) : Parser (Nat × Node × Node) := do
  let line ← nextLine
  lead
  let ty ← typeName limit
  let name ← identifier
  return (line, ty, name)

def signatureParts (limit : Option Nat) : Parser (Nat × Node × Node × Node) := do
  let line ← nextLine
  let ty ← typeName limit
  let name ← identifier
  expect .lParen
  let list ← parameterList limit
  expect .rParen
  return (line, ty, name, list)

theorem variableDeclaration_eq (limit : Option Nat) :
    variableDeclaration limit = tryRule limit .variableDeclaration
      (variableParts limit (expect .kwExtern) >>= fun x => expect .semicolon >>= fun _ =>
        nodeOf .varDecl x.1 [x.2.1, x.2.2]) := by
  simp only [variableDeclaration, variableParts, bind_bind]
  rfl

theorem variableDefinition_eq (limit : Option Nat) :
    variableDefinition limit = tryRule limit .variableDefinition
      (variableParts limit (pure ()) >>= fun x => expect .semicolon >>= fun _ =>
        nodeOf .varDef x.1 [x.2.1, x.2.2]) := by
  simp only [variableDefinition, variableParts, bind_bind]
  rfl

theorem functionDeclaration_eq (limit : Option Nat) :
    functionDeclaration limit = tryRule limit .functionDeclaration
      (signatureParts limit >>= fun x => expect .semicolon >>= fun _ =>
        nodeOf .funcDecl x.1 [x.2.1, x.2.2.1, x.2.2.2]) := by
  simp only [functionDeclaration, signature, signatureParts, bind_bind]
  rfl

theorem functionDefinition_eq (limit : Option Nat) :
    functionDefinition limit = tryRule limit .functionDefinition
      (signatureParts limit >>= fun x => expect .lBrace >>= fun _ =>
        functionBody limit >>= fun body => expect .rBrace >>= fun _ =>
          nodeOf .funcDef x.1 [x.2.1, x.2.2.1, x.2.2.2, body]) := by
  simp only [functionDefinition, signature, signatureParts, bind_bind]
  rfl

section Variable

variable (hT : T.ForVariables) (c : Nat)

include hT

theorem spends_parameter (limit : Option Nat) (list : Draft) :
    Spends T (c + list.credit + 100) (parameter limit list) fun d => c + d.credit + 4 := by
  refine (spends_typeName hT (c + list.credit) limit).andThen fun ty => ?_
  refine (spends_identifier hT _).andThen fun name => ?_
  refine ((spends_append list ty (c + 52)).mono (by omega) fun _ => Nat.le_refl _).andThen
    fun list => ?_
  exact (spends_append list name (c + 4)).mono (by omega) fun _ => by omega

theorem spends_variableParts (limit : Option Nat) {lead : Parser Unit}
    (hlead : Spends T (c + 100) lead fun _ => c + 100) :
    Spends T (c + 100) (variableParts limit lead) fun _ => c + 100 := by
  refine (spends_nextLine (c + 100)).andThen fun line => ?_
  refine hlead.andThen fun _ => ?_
  refine (spends_typeName hT c limit).andThen fun ty => ?_
  refine (spends_identifier hT c).andThen fun name => ?_
  exact spends_pure (line, ty, name) fun _ => c + 100

theorem spends_kwExtern : Spends T c (expect .kwExtern) fun _ => c :=
  (spends_expect (hT.typePart .kwExtern rfl) (by simp) c).mono (Nat.le_refl _) fun _ =>
    Nat.le_add_right _ _

theorem wastes_variableDeclaration (limit : Option Nat) :
    Wastes T 100 (variableDeclaration limit) := by
  rw [variableDeclaration_eq]
  have hparts := spends_variableParts hT 0 limit (spends_kwExtern hT _)
  exact .tryRule (wastes_of_stop hparts fun _ _ => ⟨_, rfl⟩) _ _

theorem wastes_variableDefinition (limit : Option Nat) :
    Wastes T 100 (variableDefinition limit) := by
  rw [variableDefinition_eq]
  have hparts := spends_variableParts hT 0 limit (spends_pure () fun _ => 100)
  exact .tryRule (wastes_of_stop hparts fun _ _ => ⟨_, rfl⟩) _ _

end Variable

section Full

variable (pool : List Token) (limit : Option Nat)

theorem spends_paidNode (kind : NodeKind) (line : Nat) {children : List Node}
    (h : children.length ≤ 4) (c : Nat) :
    Spends (.full pool) (c + 1024) (nodeOf kind line children) fun _ => c + 700 :=
  (spends_nodeOf kind line h (c + 700)).mono (show c + 700 + 300 ≤ c + 1024 by omega) fun _ =>
    Nat.le_refl _

theorem spends_finish (kind : NodeKind) (line : Nat) {children : List Node}
    (h : children.length ≤ 4) (c : Nat) :
    Spends (.full pool) c (expect .semicolon >>= fun _ => nodeOf kind line children)
      fun _ => c + 700 :=
  (spends_expect rfl (by simp) c).andThen fun _ => spends_paidNode pool kind line h c

theorem spends_variableDeclaration (c : Nat) :
    Spends (.full pool) (c + 100) (variableDeclaration limit) fun _ => c + 700 := by
  have hT := (Tariff.full_forSignatures pool).toForVariables
  rw [variableDeclaration_eq]
  have hparts := spends_variableParts hT c limit (spends_kwExtern hT _)
  refine .tryRule (hparts.andThen fun x => ?_) _ _
  exact (spends_finish pool _ _ (by simp) _).mono (Nat.le_refl _) fun _ => by omega

theorem spends_variableDefinition (c : Nat) :
    Spends (.full pool) (c + 100) (variableDefinition limit) fun _ => c + 700 := by
  have hT := (Tariff.full_forSignatures pool).toForVariables
  rw [variableDefinition_eq]
  have hparts := spends_variableParts hT c limit (spends_pure () fun _ => c + 100)
  refine .tryRule (hparts.andThen fun x => ?_) _ _
  exact (spends_finish pool _ _ (by simp) _).mono (Nat.le_refl _) fun _ => by omega

end Full

section Signature

variable (hT : T.ForSignatures)

include hT

/-- Every comma pays for the parameter behind it. -/
theorem spends_parameters (limit : Option Nat) (list : Draft) (c : Nat) :
    Spends T (c + list.credit + 100) (parameters limit list) fun d => c + d.credit := by
  intro s most hs hm
  induction hn : s.left using Nat.strongRecOn generalizing list s with
  | ind n ih =>
    subst hn
    have h := spends_parameter hT.toForVariables c limit list s most hs hm
    rw [parameters_eq, bind_apply]
    rcases hp : parameter limit list s with ⟨d | _ | e, t⟩
    · rw [hp] at h
      cases h with
      | matched ht hmt =>
        rw [Result.andThen_matched]
        split
        · exact .matched ht (by omega)
        · split
          · next hcomma =>
            have hne : t.nextKind ≠ .eof := by simp [hcomma]
            have hskip := T.bill_skip (s := t) (hcomma ▸ hT.comma) hne
            have hrate := hT.rate
            have hlt : t.skip.left < s.left :=
              Nat.lt_trans (State.left_skip_lt hne) ((consumes_parameter limit list).lt hp)
            exact ih _ hlt _ _ (State.pending_skip_subset ht hne) (by omega) rfl
          · exact .mismatch (Nat.le_trans (T.charge_le_bill t) (by omega))
    · rw [hp] at h
      cases h with
      | mismatch h => exact .mismatch h
    · rw [hp] at h
      cases h with
      | fatal h => exact .fatal h

theorem spends_parameterList (limit : Option Nat) (c : Nat) :
    Spends T (c + 200) (parameterList limit) fun _ => c := by
  refine .tryRule ?_ limit .parameterList
  refine (spends_openNode .paramList (by decide) (c + 100)).andThen fun list => ?_
  have hlist : Spends T (c + list.credit + 100) (someParameters limit list)
      fun d => c + d.credit := by
    intro s most hs hm
    unfold someParameters
    split
    · exact .matched hs (by omega)
    · exact spends_parameters hT limit list c s most hs hm
  refine (hlist.mono (by omega) fun _ => Nat.le_refl _).andThen fun list => ?_
  exact (spends_pure list.close fun _ => c).mono (Nat.le_add_right _ _) fun _ => Nat.le_refl _

theorem spends_signatureParts (limit : Option Nat) (c : Nat) :
    Spends T (c + 100) (signatureParts limit) fun _ => c := by
  have hrate := hT.rate
  refine (spends_nextLine (c + 100)).andThen fun line => ?_
  refine (spends_typeName hT.toForVariables c limit).andThen fun ty => ?_
  refine (spends_identifier hT.toForVariables c).andThen fun name => ?_
  refine (spends_expect hT.lParen (by simp) (c + 100)).andThen fun _ => ?_
  refine ((spends_parameterList hT limit (c + 100)).mono (by omega) fun _ => Nat.le_refl _).andThen
    fun list => ?_
  refine (spends_expect hT.rParen (by simp) (c + 100)).andThen fun _ => ?_
  exact (spends_pure (line, ty, name, list) fun _ => c).mono (by omega) fun _ => Nat.le_refl _

theorem wastes_functionDeclaration (limit : Option Nat) :
    Wastes T 100 (functionDeclaration limit) := by
  rw [functionDeclaration_eq]
  exact .tryRule (wastes_of_stop (spends_signatureParts hT limit 0) fun _ _ => ⟨_, rfl⟩) _ _

end Signature

end MiniC.Parser
