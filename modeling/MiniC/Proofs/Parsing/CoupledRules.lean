import MiniC.Proofs.Parsing.Coupling

namespace MiniC.Parser

variable {α β : Type} {C : Coupling} {R : α → β → Prop} {s t : State}
variable {d d' : Draft}

theorem couple_noQualifier : Couple C Eq noQualifier noQualifier := by
  intro s t hst
  have hline := C.nextLine hst
  unfold noQualifier
  rw [← C.nextKind hst]
  split
  · exact .mismatch (C.record hst (.duplicateQualifier _ hline))
  · exact .matched rfl hst

theorem couple_innerQualifier (qualified : Bool) (hd : Drafts C d d') :
    Couple C (Drafts C) (innerQualifier qualified d) (innerQualifier qualified d') := by
  unfold innerQualifier
  split
  · exact couple_noQualifier.andThen fun _ _ _ => couple_pure hd
  · exact couple_optionalLeaf rfl hd

theorem stars_coupled (C : Coupling) (d : Draft) (s : State) :
    ∀ (d' : Draft) (t : State), C.state s t → Drafts C d d' →
      Drafts C (stars d s).1 (stars d' t).1 ∧ C.state (stars d s).2 (stars d' t).2 := by
  fun_induction stars d s with
  | case1 d s h pushed ih =>
    intro d' t hst hd
    obtain ⟨hadd, hread⟩ := addLeaf_coupled hst (by simp [h]) hd
    have ht : t.nextKind = .star := (C.nextKind hst).symm.trans h
    have hstars : stars d' t = stars (t.addLeaf d').1 (t.addLeaf d').2 := by rw [stars, if_pos ht]
    rw [hstars]
    exact ih _ _ hread hadd
  | case2 d s h =>
    intro d' t hst hd
    have ht : t.nextKind ≠ .star := fun ht => h ((C.nextKind hst).trans ht)
    rw [stars, if_neg ht]
    exact ⟨hd, hst⟩

theorem couple_outerQualifier (hd : Drafts C d d') :
    Couple C (Drafts C) (outerQualifier d) (outerQualifier d') := by
  intro s t hst
  unfold outerQualifier
  rw [← C.nextKind hst]
  split
  · refine Couple.andThen (couple_requiredLeaf rfl hd) (fun d d' hd => ?_) s t hst
    exact couple_noQualifier.andThen fun _ _ _ => couple_pure hd
  · exact .matched hd hst

theorem couple_pointer (hd : Drafts C d d') :
    Couple C (Drafts C) (pointer d) (pointer d') := by
  intro s t hst
  unfold pointer
  rw [← C.nextKind hst]
  split
  · obtain ⟨hadd, hread⟩ := stars_coupled C d s d' t hst hd
    exact couple_outerQualifier hadd _ _ hread
  · exact .matched hd hst

variable (C)

-- the body of the rule is a row of eight parsers
set_option synthInstance.maxSize 512 in
theorem couple_typeName : Couple C (Nodes C) (typeName C.limit) (typeName C.limit') := by
  refine Couple.tryRule ?_ .type
  refine (couple_openNode _ _).andThen fun d d' hd => ?_
  refine (couple_optionalLeaf rfl hd).andThen fun d d' hd => ?_
  refine couple_nextKind.andThen fun k k' hk => ?_
  refine (couple_optionalLeaf rfl hd).andThen fun d d' hd => ?_
  refine (couple_optionalLeaf rfl hd).andThen fun d d' hd => ?_
  refine (couple_requiredLeaf rfl hd).andThen fun d d' hd => ?_
  rw [← hk]
  refine (couple_innerQualifier _ hd).andThen fun d d' hd => ?_
  exact (couple_pointer hd).andThen fun d d' hd => couple_pure hd.close

theorem couple_identifier : Couple C (Nodes C) identifier identifier := by
  intro s t hst
  unfold identifier
  rw [← C.nextKind hst]
  split
  · next h =>
    obtain ⟨hleaf, hread⟩ := takeLeaf_coupled hst (by simp [h])
    exact .matched hleaf hread
  · exact .mismatch hst

theorem couple_variableDeclaration :
    Couple C (Nodes C) (variableDeclaration C.limit) (variableDeclaration C.limit') := by
  refine Couple.tryRule ?_ .variableDeclaration
  refine couple_nextLine.andThen fun line line' hline => ?_
  refine (couple_expect (by simp)).andThen fun _ _ _ => ?_
  refine (couple_typeName C).andThen fun ty ty' hty => ?_
  refine (couple_identifier C).andThen fun name name' hname => ?_
  refine (couple_expect (by simp)).andThen fun _ _ _ => ?_
  exact couple_nodeOf _ hline (.cons hty (.cons hname .nil))

theorem couple_variableDefinition :
    Couple C (Nodes C) (variableDefinition C.limit) (variableDefinition C.limit') := by
  refine Couple.tryRule ?_ .variableDefinition
  refine couple_nextLine.andThen fun line line' hline => ?_
  refine (couple_typeName C).andThen fun ty ty' hty => ?_
  refine (couple_identifier C).andThen fun name name' hname => ?_
  refine (couple_expect (by simp)).andThen fun _ _ _ => ?_
  exact couple_nodeOf _ hline (.cons hty (.cons hname .nil))

variable {C}

theorem couple_parameter (hd : Drafts C d d') :
    Couple C (Drafts C) (parameter C.limit d) (parameter C.limit' d') := by
  refine (couple_typeName C).andThen fun ty ty' hty => ?_
  refine (couple_identifier C).andThen fun name name' hname => ?_
  exact (couple_append hd hty).andThen fun d d' hd => couple_append hd hname

theorem couple_parameters (hd : Drafts C d d') :
    Couple C (Drafts C) (parameters C.limit d) (parameters C.limit' d') := by
  intro s t hst
  induction hn : s.left using Nat.strongRecOn generalizing d d' s t with
  | ind n ih =>
    subst hn
    have hlog (d : Draft) : GrowsLog fun v : State =>
        if v.nextKind = .rParen then (⟨.matched d, v⟩ : Result Draft)
        else if v.nextKind = .comma then parameters C.limit' d v.skip else ⟨.mismatch, v⟩ := by
      refine ⟨fun v => ?_⟩
      split
      · exact List.suffix_rfl
      · split
        · exact (keeps_parameters C.limit' d v.skip).log
        · exact List.suffix_rfl
    rw [parameters_eq C.limit, parameters_eq C.limit']
    refine coupled_bind (couple_parameter hd s t hst) fun d d' u v hu hd huv => ?_
    have hlt := (consumes_parameter _ _).lt hu
    rw [← C.nextKind huv]
    split
    · exact .matched hd huv
    · split
      · next hc =>
        have hs : u.nextKind ≠ .eof := by simp [hc]
        have hskip := State.left_skip_lt hs
        exact ih u.skip.left (by omega) hd u.skip v.skip (C.skip huv hs) rfl
      · exact .mismatch huv

theorem couple_someParameters (hd : Drafts C d d') :
    Couple C (Drafts C) (someParameters C.limit d) (someParameters C.limit' d') := by
  intro s t hst
  unfold someParameters
  rw [← C.nextKind hst]
  split
  · exact .matched hd hst
  · exact couple_parameters hd s t hst

variable (C)

theorem couple_parameterList :
    Couple C (Nodes C) (parameterList C.limit) (parameterList C.limit') := by
  refine Couple.tryRule ?_ .parameterList
  refine (couple_openNode _ _).andThen fun d d' hd => ?_
  exact (couple_someParameters hd).andThen fun d d' hd => couple_pure hd.close

theorem couple_signature :
    Couple C (List.Forall₂ (Nodes C)) (signature C.limit) (signature C.limit') := by
  refine (couple_typeName C).andThen fun ty ty' hty => ?_
  refine (couple_identifier C).andThen fun name name' hname => ?_
  refine (couple_expect (by simp)).andThen fun _ _ _ => ?_
  refine (couple_parameterList C).andThen fun list list' hlist => ?_
  refine (couple_expect (by simp)).andThen fun _ _ _ => ?_
  exact couple_pure (.cons hty (.cons hname (.cons hlist .nil)))

theorem couple_functionDeclaration :
    Couple C (Nodes C) (functionDeclaration C.limit) (functionDeclaration C.limit') := by
  refine Couple.tryRule ?_ .functionDeclaration
  refine couple_nextLine.andThen fun line line' hline => ?_
  refine (couple_signature C).andThen fun parts parts' hparts => ?_
  exact (couple_expect (by simp)).andThen fun _ _ _ => couple_nodeOf _ hline hparts

theorem couple_refusedDeclaration : Couple C (Nodes C) refusedDeclaration refusedDeclaration := by
  intro s t hst
  unfold refusedDeclaration
  rw [← C.nextKind hst]
  split
  · exact couple_refuseConstruct _ s t hst
  · exact .mismatch hst

theorem couple_cast : Couple C (Nodes C) (cast C.limit) (cast C.limit') := by
  refine Couple.tryRule ?_ .cast
  refine (couple_typeName C).andThen fun ty ty' hty => ?_
  exact (couple_expect (by simp)).andThen fun _ _ _ => couple_pure hty.toCast

variable {C}

/-- From these states on, operands are read in step. -/
def OperandsInStep (C : Coupling) (s t : State) : Prop :=
  ∀ d d', Drafts C d d' →
    (operands C.limit d s).Coupled C (Drafts C) (operands C.limit' d' t)

theorem expression_coupled (hst : C.state s t)
    (h : ∀ u v, u.left ≤ s.left → C.state u v → OperandsInStep C u v) :
    (expression C.limit s).Coupled C (Nodes C) (expression C.limit' t) := by
  rw [expression_eq C.limit, expression_eq C.limit']
  refine coupled_tryRule hst fun henter => ?_
  refine coupled_bind (couple_openNode _ _ _ _ henter) fun d d' u v hu hd huv => ?_
  have hleft := (reads_openNode _ _).le (s := s.enter .expression) hu
  exact coupled_bind (h u v hleft huv d d' hd) fun d d' u v _ hd huv => .matched hd.close huv

theorem operandsInStep (hst : C.state s t) : OperandsInStep C s t := by
  induction hn : s.left using Nat.strongRecOn generalizing s t with
  | ind n ih =>
    subst hn
    have ih (u v : State) (hu : u.left < s.left) (huv : C.state u v) := ih u.left hu huv rfl
    intro d d' hd
    have hkind := C.nextKind hst
    rw [operands_eq C.limit, operands_eq C.limit', ← hkind]
    split
    · exact .matched hd hst
    · exact .mismatch hst
    · next hp =>
      have hs := TokenKind.ne_eof_of_operand hp
      obtain ⟨hadd, hread⟩ := addLeaf_coupled hst hs hd
      exact ih _ _ (State.left_addLeaf_lt d hs) hread _ _ hadd
    · next hp =>
      have hs := TokenKind.ne_eof_of_group hp
      have hlt := State.left_skip_lt hs
      have hgrows : GrowsLog (group C.limit') := (keeps_group _).growsLog
      refine coupled_bind (coupled_bind (coupled_orElse (couple_cast C _ _ (C.skip hst hs))
        fun u v hu huv => ?_) fun n n' u v _ hn huv => couple_append hd hn u v huv)
        fun e e' u v hu he huv => ih u v ?_ huv e e' he
      · have hul := (consumes_cast _).reads.le hu
        refine coupled_bind (expression_coupled huv fun w x hw hwx => ih w x (by omega) hwx) ?_
        intro n n' u v _ hn huv
        exact (couple_expect (by simp)).andThen (fun _ _ _ => couple_pure hn) u v huv
      · have hul := ((keeps_inner C.limit d).of_eq hu).left_le
        omega

variable (C)

theorem couple_expression : Couple C (Nodes C) (expression C.limit) (expression C.limit') :=
  fun _ _ hst => expression_coupled hst fun _ _ _ huv => operandsInStep huv

variable {C}

theorem couple_simpleStatement (hd : Drafts C d d') :
    Couple C (Drafts C) (simpleStatement C.limit d) (simpleStatement C.limit' d') := by
  intro s t hst
  unfold simpleStatement
  rw [← C.nextKind hst]
  split
  · exact couple_refuseConstruct _ s t hst
  · refine Couple.andThen (couple_optionalLeaf rfl hd) (fun d d' hd => ?_) s t hst
    refine (couple_expression C).andThen fun n n' hn => ?_
    exact (couple_expect (by simp)).andThen fun _ _ _ => couple_append hd hn

def CompoundInStep (C : Coupling) (s t : State) : Prop :=
  ∀ d d', Drafts C d d' →
    (compound C.limit d s).Coupled C (Drafts C) (compound C.limit' d' t)

theorem statement_coupled (hst : C.state s t)
    (h : ∀ u v, u.left < s.left → C.state u v → CompoundInStep C u v) :
    (statement C.limit s).Coupled C (Nodes C) (statement C.limit' t) := by
  have hgrows (d : Draft) : GrowsLog (statementParts C.limit' d) := by
    refine ⟨fun u => ?_⟩
    unfold statementParts
    split
    · exact (keeps_compound C.limit' d u.skip).log
    · exact (keeps_simpleStatement C.limit' d u).log
  rw [statement_eq C.limit, statement_eq C.limit']
  refine coupled_tryRule hst fun henter => ?_
  refine coupled_bind (couple_openNode _ _ _ _ henter) fun d d' u v hu hd huv => ?_
  have hleft : u.left ≤ s.left := (reads_openNode _ _).le (s := s.enter .statement) hu
  refine coupled_bind (R := Drafts C) ?_ fun d d' u v _ hd huv => .matched hd.close huv
  unfold statementParts
  rw [← C.nextKind huv]
  split
  · next hb =>
    have hs : u.nextKind ≠ .eof := by simp [hb]
    have hskip := State.left_skip_lt hs
    exact h u.skip v.skip (by omega) (C.skip huv hs) d d' hd
  · exact couple_simpleStatement hd u v huv

theorem compoundInStep (hst : C.state s t) : CompoundInStep C s t := by
  induction hn : s.left using Nat.strongRecOn generalizing s t with
  | ind n ih =>
    subst hn
    have ih (u v : State) (hu : u.left < s.left) (huv : C.state u v) := ih u.left hu huv rfl
    intro d d' hd
    rw [compound_eq C.limit, compound_eq C.limit', ← C.nextKind hst]
    split
    · next hb => exact .matched hd (C.skip hst (by simp [hb]))
    · refine coupled_bind (coupled_bind (statement_coupled hst ih) fun n n' u v _ hn huv =>
        couple_append hd hn u v huv) fun d d' u v hu hd huv => ih u v ?_ huv d d' hd
      exact ((consumes_statement _).andThen fun _ => reads_append _ _).lt hu

variable (C)

theorem couple_statement : Couple C (Nodes C) (statement C.limit) (statement C.limit') :=
  fun _ _ hst => statement_coupled hst fun _ _ _ huv => compoundInStep huv

instance (limit : Option Nat) : GrowsLog (statement limit) := (keeps_statement limit).growsLog

theorem couple_bodyItem : Couple C (Nodes C) (bodyItem C.limit) (bodyItem C.limit') :=
  (couple_variableDefinition C).orElse (couple_statement C)

variable {C}

instance (limit : Option Nat) (d : Draft) : GrowsLog (bodyItems limit d) :=
  (keeps_bodyItems limit d).growsLog

theorem couple_bodyItems (hd : Drafts C d d') :
    Couple C (Drafts C) (bodyItems C.limit d) (bodyItems C.limit' d') := by
  intro s t hst
  induction hn : s.left using Nat.strongRecOn generalizing d d' s t with
  | ind n ih =>
    subst hn
    rw [bodyItems_eq C.limit, bodyItems_eq C.limit', ← C.nextKind hst]
    split
    · exact .matched hd hst
    · refine coupled_bind (coupled_bind (couple_bodyItem C s t hst) fun n n' u v _ hn huv =>
        couple_append hd hn u v huv) fun d d' u v hu hd huv => ih u.left ?_ hd u v huv rfl
      exact ((consumes_bodyItem _).andThen fun _ => reads_append _ _).lt hu

variable (C)

theorem couple_functionBody :
    Couple C (Nodes C) (functionBody C.limit) (functionBody C.limit') := by
  refine Couple.tryRule ?_ .functionBody
  refine (couple_openNode _ _).andThen fun d d' hd => ?_
  exact (couple_bodyItems hd).andThen fun d d' hd => couple_pure hd.close

instance (limit : Option Nat) : GrowsLog (functionBody limit) := (keeps_functionBody limit).growsLog

theorem couple_functionDefinition :
    Couple C (Nodes C) (functionDefinition C.limit) (functionDefinition C.limit') := by
  refine Couple.tryRule ?_ .functionDefinition
  refine couple_nextLine.andThen fun line line' hline => ?_
  refine (couple_signature C).andThen fun parts parts' hparts => ?_
  refine (couple_expect (by simp)).andThen fun _ _ _ => ?_
  refine (couple_functionBody C).andThen fun body body' hbody => ?_
  refine (couple_expect (by simp)).andThen fun _ _ _ => ?_
  exact couple_nodeOf _ hline (List.rel_append hparts (.cons hbody .nil))

theorem couple_rejectUnit : Couple C R rejectUnit rejectUnit := by
  intro s t hst
  have hline := ParseError.Like.unrecognized s.nextKind (C.nextLine hst)
  have he := C.unrecognized hst
  unfold rejectUnit
  rw [← C.nextKind hst] at he ⊢
  exact .fatal he (C.record hst (.unitRejected hline))

instance (limit : Option Nat) : GrowsLog (variableDefinition limit) :=
  (keeps_variableDefinition limit).growsLog

instance (limit : Option Nat) : GrowsLog (functionDeclaration limit) :=
  (keeps_functionDeclaration limit).growsLog

instance (limit : Option Nat) : GrowsLog (functionDefinition limit) :=
  (keeps_functionDefinition limit).growsLog

instance : GrowsLog refusedDeclaration := keeps_refusedDeclaration.growsLog

theorem couple_topLevel : Couple C (Nodes C) (topLevel C.limit) (topLevel C.limit') :=
  (couple_variableDeclaration C).orElse <|
    (couple_variableDefinition C).orElse <|
      (couple_functionDeclaration C).orElse <|
        (couple_functionDefinition C).orElse (couple_refusedDeclaration C)

variable {C}

instance (limit : Option Nat) (d : Draft) : GrowsLog (unitItems limit d) :=
  (keeps_unitItems limit d).growsLog

theorem couple_unitItems (hd : Drafts C d d') :
    Couple C (Drafts C) (unitItems C.limit d) (unitItems C.limit' d') := by
  intro s t hst
  induction hn : s.left using Nat.strongRecOn generalizing d d' s t with
  | ind n ih =>
    subst hn
    rw [unitItems_eq C.limit, unitItems_eq C.limit', ← C.nextKind hst]
    split
    · exact .matched hd hst
    · have htop := (couple_topLevel C).orElse (couple_rejectUnit C) s t hst
      refine coupled_bind (coupled_bind htop fun n n' u v _ hn huv =>
        couple_append hd hn u v huv) fun d d' u v hu hd huv => ih u.left ?_ hd u v huv rfl
      exact (((consumes_topLevel _).orElse consumes_rejectUnit).andThen
        fun _ => reads_append _ _).lt hu

variable (C)

theorem couple_translationUnit :
    Couple C (Nodes C) (translationUnit C.limit) (translationUnit C.limit') := by
  refine (couple_openNode _ _).andThen fun d d' hd => ?_
  refine (couple_unitItems hd).andThen fun d d' hd => ?_
  refine Couple.andThen (R := Eq) (fun s t hst => ?_) fun _ _ _ => couple_pure hd.close
  have hevent := Event.Like.unitParsed d.children.size (C.lastLine hst)
  refine .matched rfl ?_
  simp only [← hd.size_children]
  exact C.record hst hevent

end MiniC.Parser
