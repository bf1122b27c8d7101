import MiniC.Proofs.Runs.Detours
import MiniC.Proofs.Syntax.Shapes

namespace MiniC

open Syntax

namespace Parser

variable {α : Type} {limit : Option Nat} {rule other : Rule} {p : Parser α} {s t : State}
  {d d' : Draft} {n : Node} {k m : Nat}

/-- The rules that are tried in a type. -/
abbrev onlyTypes : Rule → Prop := (· = .type)

instance : IsComposed limit onlyTypes (typeName limit) := isComposed_typeName rfl

theorem tally_matched (limit : Option Nat) [hp : IsComposed limit onlyTypes p] (hrule : rule ≠ .type) {a : α}
    (h : p s = ⟨.matched a, t⟩) (m : Nat) : s.Tally rule m t m := by
  have hnotes := (hp.composed s).notes
  rw [h] at hnotes
  exact .of_adds hnotes hrule m

theorem tally_mismatch (limit : Option Nat) [hp : IsComposed limit onlyTypes p] (hrule : rule ≠ .type)
    (h : p s = ⟨.mismatch, t⟩) (m : Nat) : s.Tally rule m t m := by
  have hnotes := (hp.composed s).notes
  rw [h] at hnotes
  exact .of_adds hnotes hrule m

theorem tally_tryRule_matched {a : α} (h : tryRule limit other p s = ⟨.matched a, t⟩)
    (hp : ∀ u, p (s.enter other) = ⟨.matched a, u⟩ → (s.enter other).Tally rule k u m) :
    s.Tally rule k t m := by
  rw [tryRule_of_room (room_of_matched h)] at h
  rcases hr : p (s.enter other) with ⟨b | _ | e, u⟩ <;> rw [hr] at h
  · obtain ⟨ha, rfl⟩ := Result.mk.inj h
    obtain rfl := Outcome.matched.inj ha
    exact hp u hr
  · simp [State.leave] at h
  · simp [State.leave] at h

theorem tally_tryRule_mismatch (h : tryRule limit other p s = ⟨.mismatch, t⟩)
    (hp : ∀ u, p (s.enter other) = ⟨.mismatch, u⟩ → (s.enter other).Tally rule k u m) :
    s.Tally rule k t (m + if other = rule then 1 else 0) := by
  rw [tryRule_of_room (tryRule_eq_mismatch h).1] at h
  rcases hr : p (s.enter other) with ⟨b | _ | e, u⟩ <;> rw [hr] at h
  · simp [State.leave] at h
  · obtain ⟨-, rfl⟩ := Result.mk.inj h
    have hu : mismatches rule u.log + k = mismatches rule s.log + m := hp u hr
    simp only [State.Tally, mismatches, List.countP_cons, Event.isMismatchOf, beq_iff_eq] at hu ⊢
    omega
  · simp [State.leave] at h

theorem tally_rule_matched [IsComposed limit onlyTypes p] (hrule : rule ≠ .type) {a : α}
    (h : tryRule limit other p s = ⟨.matched a, t⟩) (m : Nat) : s.Tally rule m t m :=
  tally_tryRule_matched h fun _ hu => tally_matched limit hrule hu m

theorem tally_rule_mismatch [IsComposed limit onlyTypes p] (hrule : rule ≠ .type)
    (h : tryRule limit other p s = ⟨.mismatch, t⟩) (m : Nat) :
    s.Tally rule m t (m + if other = rule then 1 else 0) :=
  tally_tryRule_mismatch h fun _ hu => tally_mismatch limit hrule hu m

/-- What was found for a child is counted in the node from then on. -/
theorem tally_append (d : Draft)
    (h : s.Tally rule 0 t (n.shape.detours rule + childDetours rule d.kind n.kind)) :
    s.Tally rule (d.detours rule) (t.append d n).2 ((t.append d n).1.detours rule) := by
  have hsteps : t.Tally rule 0 (t.append d n).2 0 := .of_steps (t.steps_append d n) 0
  rw [show (t.append d n).1 = d.push n from rfl, d.detours_push]
  unfold State.Tally at *
  omega

theorem tally_openNode (s : State) (kind : NodeKind) (wanted : Nat) :
    s.Tally rule 0 (s.openNode kind wanted).2 ((s.openNode kind wanted).1.detours rule) := by
  rw [show (s.openNode kind wanted).1.detours rule = 0 from Draft.detours_empty rule _ _ _]
  exact .of_steps (s.steps_openNode kind wanted) 0

/-- From `s` on, operands are read with as many failures as they make in their expression. -/
def OperandsTally (limit : Option Nat) (rule : Rule) (s : State) : Prop :=
  ∀ (d d' : Draft) (t : State), operands limit d s = ⟨.matched d', t⟩ → d.kind = .expression →
    s.Tally rule (d.detours rule) t (d'.detours rule)

theorem expression_tally_of
    (hoperands : ∀ t : State, t.left ≤ s.left → t.interner.Faithful → OperandsTally limit rule t)
    (hf : s.interner.Faithful) (h : expression limit s = ⟨.matched n, t⟩) :
    s.Tally rule 0 t (n.shape.detours rule) := by
  rw [expression_eq] at h
  refine tally_tryRule_matched h fun u hu => ?_
  obtain ⟨d, s₁, h₁, k₁⟩ := bind_eq_matched hu
  obtain ⟨d', s₂, h₂, k₂⟩ := bind_eq_matched k₁
  obtain ⟨rfl, rfl⟩ := step_eq_matched h₁
  obtain ⟨rfl, rfl⟩ := pure_eq_matched k₂
  let s₀ := s.enter .expression
  have hread := hoperands (s₀.openNode .expression 4).2 (Nat.le_refl _) hf _ _ _ h₂ rfl
  exact (tally_openNode s₀ .expression 4).trans hread

theorem shape_kind {x : Shape} (h : n.shape = x) : n.kind = x.kind := by
  rw [← h, Node.shape_eq]

theorem inner_tally (hrule : rule ≠ .type)
    (hoperands : ∀ t : State, t.left ≤ s.left → t.interner.Faithful → OperandsTally limit rule t)
    (hf : s.interner.Faithful) (h : (cast limit).orElse (group limit) s = ⟨.matched n, t⟩) :
    s.Tally rule 0 t (n.shape.detours rule + childDetours rule .expression n.kind) := by
  rcases orElse_eq_matched h with h | ⟨u, hu, h⟩
  · obtain ⟨ty, -, hn, -⟩ := cast_sound hf h
    have hnone : n.shape.detours rule + childDetours rule .expression n.kind = 0 := by
      rw [shape_kind hn, hn, Shape.detours_eq_zero (by simp) (by simp) fun _ _ _ _ => ty.pairs_shapes]
      cases rule <;> rfl
    rw [hnone]
    exact tally_rule_matched hrule h 0
  · have hk := (keeps_cast limit).of_eq hu
    obtain ⟨inner, s₁, h₁, k₁⟩ := bind_eq_matched h
    obtain ⟨_, s₂, h₂, k₂⟩ := bind_eq_matched k₁
    obtain ⟨rfl, rfl⟩ := pure_eq_matched k₂
    obtain ⟨e, -, -, hn, -⟩ := expression_sound (hk.faithful hf) h₁
    have hread := expression_tally_of (fun v hv => hoperands v (Nat.le_trans hv hk.left_le))
      (hk.faithful hf) h₁
    have hclose : s₁.Tally rule _ t _ := tally_matched limit hrule h₂
      (n.shape.detours rule + if .cast = rule then 1 else 0)
    have hgroup : childDetours rule .expression n.kind = if .cast = rule then 1 else 0 := by
      rw [shape_kind hn]
      cases rule <;> rfl
    rw [hgroup]
    have hfailed : s.Tally rule 0 u (0 + if .cast = rule then 1 else 0) :=
      tally_rule_mismatch hrule hu 0
    have hinner := hread.add (if .cast = rule then 1 else 0)
    rw [Nat.zero_add] at hfailed hinner
    exact hfailed.trans (hinner.trans hclose)

theorem tally_addLeaf (d : Draft) (s : State) :
    s.Tally rule (d.detours rule) (s.addLeaf d).2 ((s.addLeaf d).1.detours rule) := by
  have hleaf : s.takeLeaf.1.shape.detours rule + childDetours rule d.kind s.takeLeaf.1.kind = 0 := by
    rw [show s.takeLeaf.1 = (Draft.leaf (.token s.nextKind) _ _).close from rfl, Draft.shape_close]
    cases rule <;> simp [Shape.detours, childDetours, Shape.pairs, Shape.pairsAll, Draft.leaf,
      Draft.close]
  have htake : s.Tally rule 0 s.takeLeaf.2
      (s.takeLeaf.1.shape.detours rule + childDetours rule d.kind s.takeLeaf.1.kind) := by
    rw [hleaf]
    exact .of_steps (.leaf s) 0
  exact tally_append d htake

theorem operands_tally (hrule : rule ≠ .type) (limit : Option Nat) (s : State)
    (hf : s.interner.Faithful) : OperandsTally limit rule s := by
  induction hn : s.left using Nat.strongRecOn generalizing s with
  | ind n ih =>
    subst hn
    have ih (t : State) (ht : t.left < s.left) (hf : t.interner.Faithful) := ih t.left ht t hf rfl
    intro d d' t h hd
    rw [operands_eq] at h
    split at h
    · obtain ⟨rfl, rfl⟩ := pure_eq_matched h
      exact .of_steps (.refl _) _
    · simp at h
    · next hp =>
      have hs := TokenKind.ne_eof_of_operand hp
      have hk := State.kept_addLeaf d hs
      have hmore := ih _ (State.left_addLeaf_lt d hs) (hk.faithful hf) _ _ _ h hd
      exact (tally_addLeaf d s).trans hmore
    · next hp =>
      have hs := TokenKind.ne_eof_of_group hp
      have hlt : s.skip.left < s.left := State.left_skip_lt hs
      obtain ⟨d₂, s₂, h₂, k₂⟩ := bind_eq_matched h
      have hk := (State.kept_skip hs).trans ((keeps_inner limit d).of_eq h₂)
      have hl := ((keeps_inner limit d).of_eq h₂).left_le
      obtain ⟨inner, s₁, h₁, k₁⟩ := bind_eq_matched h₂
      obtain ⟨rfl, rfl⟩ := step_eq_matched k₁
      have hinner := inner_tally hrule (s := s.skip) (fun u hu => ih u (by omega)) hf h₁
      rw [← hd] at hinner
      have hmore := ih _ (by omega) (hk.faithful hf) _ _ _ k₂ hd
      exact State.Tally.trans (tally_append (s := s.skip) d hinner) hmore

theorem expression_tally (hrule : rule ≠ .type) (hf : s.interner.Faithful)
    (h : expression limit s = ⟨.matched n, t⟩) : s.Tally rule 0 t (n.shape.detours rule) :=
  expression_tally_of (fun u _ hu => operands_tally hrule limit u hu) hf h

theorem childDetours_of_ne {kind : NodeKind} (hexpression : kind ≠ .expression)
    (hlist : kind ≠ .statementList) (child : NodeKind) : childDetours rule kind child = 0 := by
  cases rule <;> simp [childDetours, hexpression, hlist]

theorem simpleStatement_tally (hrule : rule ≠ .type) (hf : s.interner.Faithful)
    (hd : d.kind = .statement) (h : simpleStatement limit d s = ⟨.matched d', t⟩) :
    s.Tally rule (d.detours rule) t (d'.detours rule) := by
  cases hc : Construct.ofStatement? s.nextKind with
  | some c => simp [simpleStatement, hc, refuseConstruct] at h
  | none =>
    rw [simpleStatement_of_plain d hc] at h
    obtain ⟨d₁, s₁, h₁, k₁⟩ := bind_eq_matched h
    obtain ⟨inner, s₂, h₂, k₂⟩ := bind_eq_matched k₁
    obtain ⟨_, s₃, h₃, k₃⟩ := bind_eq_matched k₂
    obtain ⟨rfl, rfl⟩ := step_eq_matched k₃
    have hreturn : d₁.kind = .statement ∧ s₁.interner.Faithful ∧
        s.Tally rule (d.detours rule) s₁ (d₁.detours rule) := by
      by_cases hk : s.nextKind = .kwReturn
      · rw [returnLeaf_of_return d hk] at h₁
        obtain ⟨rfl, rfl⟩ := pure_eq_matched h₁
        exact ⟨hd, (State.kept_addLeaf d (by simp [hk])).faithful hf, tally_addLeaf d s⟩
      · rw [returnLeaf_of_ne d hk] at h₁
        obtain ⟨rfl, rfl⟩ := pure_eq_matched h₁
        exact ⟨hd, hf, .of_steps (.refl _) _⟩
    obtain ⟨hkind, hfaithful, hleaf⟩ := hreturn
    have hread := expression_tally hrule hfaithful h₂
    have hclose := tally_matched limit hrule h₃ (inner.shape.detours rule)
    refine hleaf.trans (tally_append d₁ ?_)
    rw [childDetours_of_ne (by simp [hkind]) (by simp [hkind])]
    exact hread.trans hclose

def CompoundTally (limit : Option Nat) (rule : Rule) (s : State) : Prop :=
  ∀ (d d' : Draft) (t : State), compound limit d s = ⟨.matched d', t⟩ → d.kind = .statement →
    s.Tally rule (d.detours rule) t (d'.detours rule)

theorem statement_tally_of (hrule : rule ≠ .type)
    (hcompound : ∀ t : State, t.left < s.left → t.interner.Faithful → CompoundTally limit rule t)
    (hf : s.interner.Faithful) (h : statement limit s = ⟨.matched n, t⟩) :
    s.Tally rule 0 t (n.shape.detours rule) := by
  rw [statement_eq] at h
  refine tally_tryRule_matched h fun u hu => ?_
  obtain ⟨d, s₁, h₁, k₁⟩ := bind_eq_matched hu
  obtain ⟨d', s₂, h₂, k₂⟩ := bind_eq_matched k₁
  obtain ⟨rfl, rfl⟩ := step_eq_matched h₁
  obtain ⟨rfl, rfl⟩ := pure_eq_matched k₂
  let opened := (s.enter .statement).openNode .statement 2
  refine (tally_openNode (s.enter .statement) .statement 2).trans ?_
  unfold statementParts at h₂
  split at h₂
  · next hb =>
    have hne : opened.2.nextKind ≠ .eof := by simp [show opened.2.nextKind = .lBrace from hb]
    exact hcompound opened.2.skip (State.left_skip_lt hne) hf _ _ _ h₂ rfl
  · exact simpleStatement_tally (s := opened.2) hrule hf rfl h₂

theorem compound_tally (hrule : rule ≠ .type) (limit : Option Nat) (s : State)
    (hf : s.interner.Faithful) : CompoundTally limit rule s := by
  induction hn : s.left using Nat.strongRecOn generalizing s with
  | ind n ih =>
    subst hn
    have ih (t : State) (ht : t.left < s.left) (hf : t.interner.Faithful) := ih t.left ht t hf rfl
    intro d d' t h hd
    rw [compound_eq] at h
    split at h
    · obtain ⟨rfl, rfl⟩ := pure_eq_matched h
      exact .of_steps (.skip s) _
    · obtain ⟨d₁, s₁, h₁, k₁⟩ := bind_eq_matched h
      obtain ⟨inner, s₂, h₂, k₂⟩ := bind_eq_matched h₁
      obtain ⟨rfl, rfl⟩ := step_eq_matched k₂
      have hlt : s₂.left < s.left := (consumes_statement limit).lt h₂
      have hk := ((keeps_statement limit).of_eq h₂).trans (State.kept_append s₂ d inner)
      have hread := statement_tally_of hrule ih hf h₂
      have hmore := ih (s₂.append d inner).2 hlt (hk.faithful hf) _ _ _ k₁ hd
      refine (tally_append d ?_).trans hmore
      rwa [childDetours_of_ne (by simp [hd]) (by simp [hd])]

theorem statement_tally (hrule : rule ≠ .type) (hf : s.interner.Faithful)
    (h : statement limit s = ⟨.matched n, t⟩) : s.Tally rule 0 t (n.shape.detours rule) :=
  statement_tally_of hrule (fun u _ hu => compound_tally hrule limit u hu) hf h

theorem variable_detours (v : Variable) {kind : NodeKind} (hexpression : kind ≠ .expression)
    (hlist : kind ≠ .statementList) (hn : n.shape = ⟨kind, none, v.shapes⟩) :
    n.shape.detours rule = 0 := by
  rw [hn]
  exact Shape.detours_eq_zero hexpression hlist fun _ _ htype _ => v.pairs_shapes htype

theorem bodyItem_tally (hrule : rule ≠ .type) (hf : s.interner.Faithful)
    (h : bodyItem limit s = ⟨.matched n, t⟩) :
    s.Tally rule 0 t (n.shape.detours rule + childDetours rule .statementList n.kind) := by
  rcases orElse_eq_matched h with h | ⟨u, hu, h⟩
  · obtain ⟨v, -, hn, -⟩ := variableDefinition_sound hf h
    have hnone : childDetours rule .statementList n.kind = 0 := by
      rw [shape_kind hn]
      cases rule <;> rfl
    rw [variable_detours v (by simp) (by simp) hn, hnone]
    exact tally_rule_matched hrule h 0
  · have hk := (keeps_variableDefinition limit).of_eq hu
    obtain ⟨st, -, -, hn, -⟩ := statement_sound (hk.faithful hf) h
    have hone : childDetours rule .statementList n.kind =
        if .variableDefinition = rule then 1 else 0 := by
      rw [shape_kind hn, st.shape_kind]
      cases rule <;> rfl
    have hfailed : s.Tally rule 0 u (0 + if .variableDefinition = rule then 1 else 0) :=
      tally_rule_mismatch hrule hu 0
    rw [hone, Nat.add_comm]
    have hread := (statement_tally hrule (hk.faithful hf) h).add
      (if .variableDefinition = rule then 1 else 0)
    rw [Nat.add_comm (Shape.detours _ _)] at hread
    exact hfailed.trans hread

theorem bodyItems_tally (hrule : rule ≠ .type) (limit : Option Nat) (d : Draft) (s : State) :
    ∀ (d' : Draft) (t : State), s.interner.Faithful → d.kind = .statementList →
      bodyItems limit d s = ⟨.matched d', t⟩ → s.Tally rule (d.detours rule) t (d'.detours rule) := by
  fun_induction bodyItems limit d s with
  | case1 d s _ =>
    intro d' t _ _ h
    obtain ⟨rfl, rfl⟩ := pure_eq_matched h
    exact .of_steps (.refl _) _
  | case2 d s _ item u hu pushed ih =>
    intro d' t hf hd h
    have hk := ((keeps_bodyItem limit).of_eq hu).trans (State.kept_append u d item)
    have hitem := bodyItem_tally hrule hf hu
    rw [← hd] at hitem
    exact (tally_append d hitem).trans (ih d' t (hk.faithful hf) hd h)
  | case3 => simp
  | case4 => simp

theorem functionBody_tally (hrule : rule ≠ .type) (hf : s.interner.Faithful)
    (h : functionBody limit s = ⟨.matched n, t⟩) : s.Tally rule 0 t (n.shape.detours rule) := by
  refine tally_tryRule_matched h fun u hu => ?_
  obtain ⟨d, s₁, h₁, k₁⟩ := bind_eq_matched hu
  obtain ⟨d', s₂, h₂, k₂⟩ := bind_eq_matched k₁
  obtain ⟨rfl, rfl⟩ := step_eq_matched h₁
  obtain ⟨rfl, rfl⟩ := pure_eq_matched k₂
  let opened := (s.enter .functionBody).openNode .statementList 4
  have hread := bodyItems_tally hrule limit opened.1 opened.2 _ _ hf rfl h₂
  exact (tally_openNode (s.enter .functionBody) .statementList 4).trans hread

theorem signature_tally (hrule : rule ≠ .type) {parts : List Node}
    (h : signature limit s = ⟨.matched parts, t⟩) (m : Nat) : s.Tally rule m t m := by
  obtain ⟨ty, s₁, h₁, k₁⟩ := bind_eq_matched h
  obtain ⟨name, s₂, h₂, k₂⟩ := bind_eq_matched k₁
  obtain ⟨_, s₃, h₃, k₃⟩ := bind_eq_matched k₂
  obtain ⟨list, s₄, h₄, k₄⟩ := bind_eq_matched k₃
  obtain ⟨_, s₅, h₅, k₅⟩ := bind_eq_matched k₄
  obtain ⟨-, rfl⟩ := pure_eq_matched k₅
  have hname := (tally_matched limit hrule h₁ m).trans
    (tally_matched limit hrule h₂ m)
  have hopen := hname.trans (tally_matched limit hrule h₃ m)
  have hlist := hopen.trans (tally_rule_matched hrule h₄ m)
  exact hlist.trans (tally_matched limit hrule h₅ m)

theorem functionDeclaration_tally (hrule : rule ≠ .type)
    (h : functionDeclaration limit s = ⟨.matched n, t⟩) (m : Nat) : s.Tally rule m t m := by
  refine tally_tryRule_matched h fun u hu => ?_
  obtain ⟨line, s₁, h₁, k₁⟩ := bind_eq_matched hu
  obtain ⟨parts, s₂, h₂, k₂⟩ := bind_eq_matched k₁
  obtain ⟨rfl, rfl⟩ := step_eq_matched h₁
  have hsignature : (s.enter .functionDeclaration).Tally rule m s₂ m := signature_tally hrule h₂ m
  exact hsignature.trans (tally_matched limit hrule k₂ m)

theorem functionDefinition_tally (hrule : rule ≠ .type) (hf : s.interner.Faithful)
    (h : functionDefinition limit s = ⟨.matched n, t⟩) : s.Tally rule 0 t (n.shape.detours rule) := by
  refine tally_tryRule_matched h fun u hu => ?_
  obtain ⟨line, s₁, h₁, k₁⟩ := bind_eq_matched hu
  obtain ⟨parts, s₂, h₂, k₂⟩ := bind_eq_matched k₁
  obtain ⟨_, s₃, h₃, k₃⟩ := bind_eq_matched k₂
  obtain ⟨list, s₄, h₄, k₄⟩ := bind_eq_matched k₃
  obtain ⟨_, s₅, h₅, k₅⟩ := bind_eq_matched k₄
  obtain ⟨rfl, rfl⟩ := step_eq_matched h₁
  have hf₁ : (s.enter .functionDefinition).interner.Faithful := hf
  have hk := ((keeps_signature limit).of_eq h₂).trans ((keeps_expect (by simp)).of_eq h₃)
  obtain ⟨g, -, hs, -⟩ := signature_sound hf₁ h₂
  obtain ⟨-, hn, -⟩ := nodeOf_sound k₅
  rw [List.map_append, List.map_singleton, hs] at hn
  have hdetours : n.shape.detours rule = list.shape.detours rule := by
    rw [hn, Shape.detours_concat, childDetours_of_ne (by simp) (by simp),
      Shape.detours_eq_zero (by simp) (by simp) fun _ _ => g.pairs_shapes, Nat.zero_add, Nat.add_zero]
  have hopen := (signature_tally hrule h₂ 0).trans (tally_matched limit hrule h₃ 0)
  have hbody := hopen.trans (functionBody_tally hrule (hk.faithful hf₁) h₄)
  rw [hdetours]
  exact (hbody.trans (tally_matched limit hrule h₅ _)).trans
    (tally_matched limit hrule k₅ _)

/-- Where a signature can be read, the declaration of a function fails only behind it. -/
theorem functionDeclaration_tally_mismatch (hrule : rule ≠ .type) (hroom : Room limit (s.depth + 3))
    (hf : s.interner.Faithful) {g : Signature} {rest : List Token}
    (hg : WrittenUpTo g.print s.pending rest) (h : functionDeclaration limit s = ⟨.mismatch, t⟩)
    (m : Nat) : s.Tally rule m t (m + if .functionDeclaration = rule then 1 else 0) := by
  refine tally_tryRule_mismatch h fun u hu => ?_
  obtain ⟨parts, s₁, h₁, -⟩ := signature_complete (s := s.enter .functionDeclaration) hroom hf hg
  have hbehind : (expect .semicolon >>= fun _ => nodeOf .funcDecl s.nextLine parts) s₁ =
      ⟨.mismatch, u⟩ := (bind_of_matched h₁).symm.trans hu
  have hsignature : (s.enter .functionDeclaration).Tally rule m s₁ m := signature_tally hrule h₁ m
  exact hsignature.trans (tally_mismatch limit hrule hbehind m)

theorem topLevel_tally (hrule : rule ≠ .type) (hroom : Room limit (s.depth + 3))
    (hf : s.interner.Faithful) (h : topLevel limit s = ⟨.matched n, t⟩) :
    s.Tally rule 0 t (n.shape.detours rule + itemDetours rule [n.kind]) := by
  -- one mismatch more for each alternative that was passed over
  let failed (other : Rule) : Nat := if other = rule then 1 else 0
  rcases orElse_eq_matched h with h | ⟨s₁, h₁, h⟩
  · obtain ⟨v, -, hn, -⟩ := variableDeclaration_sound hf h
    have hitem : itemDetours rule [n.kind] = 0 := by
      rw [shape_kind hn]
      cases rule <;> rfl
    rw [variable_detours v (by simp) (by simp) hn, hitem]
    exact tally_rule_matched hrule h 0
  have hk₁ := (keeps_variableDeclaration limit).of_eq h₁
  have hp₁ := (tryRule_eq_mismatch h₁).2.1
  have ht₁ : s.Tally rule 0 s₁ (0 + failed .variableDeclaration) := tally_rule_mismatch hrule h₁ 0
  rcases orElse_eq_matched h with h | ⟨s₂, h₂, h⟩
  · obtain ⟨v, -, hn, -⟩ := variableDefinition_sound (hk₁.faithful hf) h
    have hitem : itemDetours rule [n.kind] = failed .variableDeclaration := by
      rw [shape_kind hn]
      cases rule <;> rfl
    rw [variable_detours v (by simp) (by simp) hn, hitem]
    exact ht₁.trans (tally_rule_matched hrule h _)
  have hk₂ := hk₁.trans ((keeps_variableDefinition limit).of_eq h₂)
  have hp₂ := (tryRule_eq_mismatch h₂).2.1.trans hp₁
  have ht₂ : s.Tally rule 0 s₂ (0 + failed .variableDeclaration + failed .variableDefinition) :=
    ht₁.trans (tally_rule_mismatch hrule h₂ _)
  rcases orElse_eq_matched h with h | ⟨s₃, h₃, h⟩
  · obtain ⟨g, -, hn, -⟩ := functionDeclaration_sound (hk₂.faithful hf) h
    have hitem : itemDetours rule [n.kind] =
        failed .variableDeclaration + failed .variableDefinition := by
      rw [shape_kind hn]
      cases rule <;> rfl
    have hnone : n.shape.detours rule = 0 := by
      rw [hn]
      exact Shape.detours_eq_zero (by simp) (by simp) fun _ _ => g.pairs_shapes
    rw [hnone, hitem, ← Nat.add_assoc]
    exact ht₂.trans (functionDeclaration_tally hrule h _)
  have hk₃ := hk₂.trans ((keeps_functionDeclaration limit).of_eq h₃)
  have hp₃ := (tryRule_eq_mismatch h₃).2.1.trans hp₂
  rcases orElse_eq_matched h with h | ⟨s₄, -, h⟩
  · obtain ⟨g, body, -, hw, hn, -⟩ := functionDefinition_sound (hk₃.faithful hf) h
    obtain ⟨rest, hg, -⟩ := WrittenUpTo.split (p := g.print) hw
    rw [hp₃, ← hp₂] at hg
    -- behind this signature the declaration missed its semicolon only
    have ht₃ := ht₂.trans (functionDeclaration_tally_mismatch hrule (by rwa [hk₂.depth])
      (hk₂.faithful hf) hg h₃ _)
    have hitem : itemDetours rule [n.kind] = 0 + failed .variableDeclaration +
        failed .variableDefinition + failed .functionDeclaration := by
      rw [shape_kind hn]
      cases rule <;> rfl
    rw [Nat.add_comm, hitem]
    have hread := (functionDefinition_tally hrule (hk₃.faithful hf) h).add
      (0 + failed .variableDeclaration + failed .variableDefinition + failed .functionDeclaration)
    rw [Nat.zero_add, Nat.add_comm (Shape.detours _ _)] at hread
    exact ht₃.trans hread
  · exact absurd h refusedDeclaration_ne_matched

def unitDetours (rule : Rule) (d : Draft) : Nat :=
  d.detours rule + itemDetours rule (d.children.toList.map Node.kind)

theorem unitItems_tally (hrule : rule ≠ .type) (d : Draft) (s : State) :
    ∀ (d' : Draft) (t : State), Room limit (s.depth + 3) → s.interner.Faithful →
      d.kind = .translationUnit → unitItems limit d s = ⟨.matched d', t⟩ →
      s.Tally rule (unitDetours rule d) t (unitDetours rule d') := by
  fun_induction unitItems limit d s with
  | case1 d s _ =>
    intro d' t _ _ _ h
    obtain ⟨rfl, rfl⟩ := pure_eq_matched h
    exact .of_steps (.refl _) _
  | case2 d s _ item u hu pushed ih =>
    intro d' t hroom hf hd h
    have hk := ((keeps_topLevel limit).of_eq hu).trans (State.kept_append u d item)
    have hmore := ih d' t (by rwa [hk.depth]) (hk.faithful hf) hd h
    have hitem := (topLevel_tally hrule hroom hf hu).add (unitDetours rule d)
    have happend : u.Tally rule (unitDetours rule pushed.1) pushed.2 (unitDetours rule pushed.1) :=
      .of_steps (u.steps_append d item) _
    have hpushed : unitDetours rule pushed.1 =
        item.shape.detours rule + itemDetours rule [item.kind] + unitDetours rule d := by
      rw [show pushed.1 = d.push item from rfl, unitDetours, unitDetours, d.detours_push,
        childDetours_of_ne (by simp [hd]) (by simp [hd]), d.toList_children_push, List.map_append,
        itemDetours_append, List.map_singleton]
      omega
    rw [Nat.zero_add, ← hpushed] at hitem
    exact (hitem.trans happend).trans hmore
  | case3 => simp [rejectUnit]
  | case4 => simp

/-- All failures in the parse of a unit, but those of types, can be told from the tree. -/
theorem translationUnit_tally (hrule : rule ≠ .type) (hroom : Room limit (s.depth + 3))
    (hf : s.interner.Faithful) (h : (translationUnit limit s).outcome = .matched n) :
    s.Tally rule 0 (translationUnit limit s).final
      (n.shape.detours rule + itemDetours rule n.childKinds) := by
  obtain ⟨d, t, hitems, hunit⟩ | ⟨e, t, -, hunit⟩ := translationUnit_cases limit s
  · rw [hunit] at h ⊢
    obtain rfl := Outcome.matched.inj h
    let opened := s.openNode .translationUnit 4
    have hread := unitItems_tally hrule opened.1 opened.2 _ _ hroom hf rfl hitems
    have hnone : itemDetours rule (opened.1.children.toList.map Node.kind) = 0 := by
      cases rule <;> rfl
    have hopen : s.Tally rule 0 opened.2 (unitDetours rule opened.1) := by
      rw [unitDetours, hnone]
      exact tally_openNode s .translationUnit 4
    exact (hopen.trans hread).trans (.of_record rfl _)
  · simp [hunit] at h

end Parser

/-- When a unit has been parsed, its tree tells how many attempts of each rule but types failed:
those that come before each item, each statement in a body, and each group. -/
theorem translationUnit_speculation {tokens : List Token} {cursor : Cursor} {arena : Arena}
    {interner : Interner} {log : List Event} {n : Node} (hf : interner.Faithful)
    (h : (Parser.translationUnit (some nestingLimit)
      ⟨Reader.ofTokens tokens cursor, 0, arena, interner, log⟩).outcome = .matched n) :
    let b := n.childKinds.count .varDef
    let c := n.childKinds.count .funcDecl
    let d := n.childKinds.count .funcDef
    ∃ events, (Parser.translationUnit (some nestingLimit)
        ⟨Reader.ofTokens tokens cursor, 0, arena, interner, log⟩).final.log = events ++ log ∧
      mismatches .variableDeclaration events = b + c + d ∧
      mismatches .variableDefinition events = c + d + n.shape.pairs .statementList .statement ∧
      mismatches .functionDeclaration events = d ∧
      mismatches .cast events = n.shape.pairs .expression .expression ∧
      ∀ rule ∈ [Rule.parameterList, .functionDefinition, .functionBody, .statement, .expression],
        mismatches rule events = 0 := by
  intro b c d
  let s : State := ⟨Reader.ofTokens tokens cursor, 0, arena, interner, log⟩
  obtain ⟨events, hevents⟩ := (Parser.keeps_translationUnit (some nestingLimit) s).log
  have hroom : Room (some nestingLimit) (s.depth + 3) := room_nestingLimit.mono (by simp [s])
  have htold {rule : Rule} (hrule : rule ≠ .type) :
      mismatches rule events = n.shape.detours rule + itemDetours rule n.childKinds := by
    have htally := Parser.translationUnit_tally hrule hroom hf h
    rw [State.Tally, ← hevents, mismatches_append] at htally
    change mismatches rule events + mismatches rule log + 0 = mismatches rule log + _ at htally
    omega
  refine ⟨events, hevents.symm, ?_, ?_, ?_, ?_, fun rule hmem => ?_⟩
  · rw [htold (by simp)]
    exact Nat.zero_add _
  · rw [htold (by simp)]
    exact Nat.add_comm _ _
  · rw [htold (by simp)]
    exact Nat.zero_add _
  · exact htold (by simp)
  · have hrule : rule ≠ .type := by
      rintro rfl
      simp at hmem
    rw [htold hrule]
    simp only [List.mem_cons, List.not_mem_nil, or_false] at hmem
    rcases hmem with rfl | rfl | rfl | rfl | rfl <;> rfl

theorem translationUnit_speculation_sample :
    Interner.empty.Faithful ∧ ∃ n, (Parser.translationUnit (some nestingLimit)
        ⟨Reader.ofTokens sampleTokens .start, 0, .ofCapacity .packed 4096, .empty, []⟩).outcome =
          .matched n ∧
      ∃ events, (Parser.translationUnit (some nestingLimit)
          ⟨Reader.ofTokens sampleTokens .start, 0, .ofCapacity .packed 4096, .empty, []⟩).final.log =
            events ++ [] ∧
        mismatches .variableDeclaration events = 1 ∧ mismatches .variableDefinition events = 2 ∧
        mismatches .functionDeclaration events = 1 ∧ mismatches .cast events = 1 ∧
        ∀ rule ∈ [Rule.parameterList, .functionDefinition, .functionBody, .statement, .expression],
          mismatches rule events = 0 := by
  have hw := written_sample
  rw [← sampleUnit_canonical.programTokens_eq hw] at hw
  obtain ⟨n, hn, hshape⟩ := Parser.translationUnit_complete sampleUnit_canonical
    (s := .start (Reader.ofTokens sampleTokens .start) (.ofCapacity .packed 4096))
    room_nestingLimit (fun i hi => (sampleUnit_nestsWithin i hi).fits) Interner.faithful_empty hw
  have hkinds : n.childKinds = sampleUnit.shape.children.map Shape.kind := by
    rw [← hshape, Node.shape_eq]
    simp [Node.childKinds, Node.shape_eq]
  have htold := translationUnit_speculation Interner.faithful_empty hn
  rw [hkinds, hshape] at htold
  exact ⟨Interner.faithful_empty, n, hn, htold⟩

end MiniC
