import MiniC.Proofs.Syntax.Written

namespace MiniC.Syntax

open Grammar

theorem TypeName.isType_kinds (ty : TypeName) : IsType (ty.print.map Sign.kind) := by
  have h : ty.print.map Sign.kind = ty.leaves.map Leaf.kind := by
    simp [TypeName.print, Sign.kind, Function.comp_def]
  rw [h]
  exact ty.isType

theorem Variable.isVariable_kinds (v : Variable) : IsVariable (v.print.map Sign.kind) :=
  ⟨_, v.type.isType_kinds, by simp [Variable.print, Variable.name, Sign.kind]⟩

theorem Variable.starts_with_typePart (v : Variable) {l r : List Token}
    (h : WrittenUpTo v.print l r) : ∃ x m, l = x :: m ∧ isTypePart x.kind = true := by
  obtain ⟨t, ht, hv⟩ := v.isVariable_kinds
  have hk := h.kinds
  rw [hv] at hk
  cases t with
  | nil => exact absurd rfl ht.ne_nil
  | cons k t =>
    obtain ⟨x, m, rfl, rfl, -⟩ := List.map_eq_cons_iff.mp hk
    exact ⟨x, m, rfl, ht.isTypePart_of_mem (by simp)⟩

theorem Variable.further_kinds (vs : List Variable) :
    AreFurtherParameters ((printFurther vs).map Sign.kind) := by
  induction vs with
  | nil => exact .nil
  | cons v vs ih => simpa [printFurther, Sign.kind] using ih.cons v.isVariable_kinds

theorem Variable.parameters_kinds (vs : List Variable) :
    AreParameters ((printAll vs).map Sign.kind) := by
  cases vs with
  | nil => exact .none
  | cons v vs =>
    rw [printAll, List.map_append]
    exact .some v.isVariable_kinds (further_kinds vs)

theorem Signature.isSignature_kinds (g : Signature) : IsSignature (g.print.map Sign.kind) :=
  ⟨_, _, g.head.isVariable_kinds, Variable.parameters_kinds g.parameters,
    by simp [Signature.print, Sign.kind]⟩

theorem Expression.Canonical.isExpression {e : Expression} (h : e.Canonical) :
    IsExpression (e.print.map Sign.kind) := by
  induction e with
  | nil => exact .nil
  | leaf l rest ih => exact .operand h.1 (ih h.2)
  | cast ty rest ih =>
    have hty : IsExpression (ty.print.map Sign.kind) :=
      isExpression_of_operands fun k hk =>
        isOperand_of_isTypePart (ty.isType_kinds.isTypePart_of_mem hk)
    simpa [print, Sign.kind] using IsExpression.group hty (ih h)
  | group inner rest ihi ihr =>
    simpa [print, Sign.kind] using IsExpression.group (ihi h.2.1) (ihr h.2.2)

theorem Expression.StartsAsOperand.startsPlainly {e : Expression} (h : e.StartsAsOperand) :
    StartsPlainly (e.print.map Sign.kind) := by
  intro k hk
  cases e with
  | nil => simp [print] at hk
  | leaf l rest =>
    obtain rfl : l.kind = k := by simpa [print, Sign.kind] using hk
    exact (h l rest rfl).2
  | cast ty rest =>
    obtain rfl : TokenKind.lParen = k := by simpa [print, Sign.kind] using hk
    rfl
  | group inner rest =>
    obtain rfl : TokenKind.lParen = k := by simpa [print, Sign.kind] using hk
    rfl

theorem Statement.Canonical.isStatement {s : Statement} (h : s.Canonical) :
    IsStatement (s.print.map Sign.kind) := by
  induction h with
  | @compound body _ ih =>
    have hb : IsStatement
        (.lBrace :: ((body.map fun s => s.print.map Sign.kind).flatten ++ [.rBrace])) :=
      .compound (by simpa using ih)
    simpa [print, printAll_eq_flatMap, Sign.kind, List.flatMap_def, Function.comp_def] using hb
  | ret hv => simpa [print, Sign.kind] using IsStatement.ret hv.isExpression
  | expression he hs =>
    simpa [print, Sign.kind] using IsStatement.expression he.isExpression hs.startsPlainly

/-- The definition of a variable has the form of a statement. -/
theorem Variable.isStatement_kinds (v : Variable) :
    IsStatement ((v.print ++ [Sign.mark .semicolon]).map Sign.kind) := by
  obtain ⟨t, ht, hv⟩ := v.isVariable_kinds
  have hk {k : TokenKind} (hk : k ∈ t) := ht.isTypePart_of_mem hk
  rw [List.map_append, hv]
  refine .expression (isExpression_of_operands fun k hm => ?_) fun k hm => ?_
  · rcases List.mem_append.mp hm with hm | hm
    · exact isOperand_of_isTypePart (hk hm)
    · rw [List.mem_singleton.mp hm]
      decide
  · cases t with
    | nil => exact absurd rfl ht.ne_nil
    | cons k' t =>
      obtain rfl : k' = k := by simpa using hm
      exact (plain_of_isTypePart (hk (by simp))).2

theorem Local.Canonical.isStatement {x : Local} (h : x.Canonical) :
    IsStatement (x.print.map Sign.kind) := by
  cases x with
  | definition v => exact v.isStatement_kinds
  | statement s => exact h.1.isStatement

theorem Local.repeated_kinds {body : List Local} (h : ∀ x ∈ body, x.Canonical) :
    Repeated IsStatement ((body.flatMap Local.print).map Sign.kind) := by
  refine ⟨body.map fun x => x.print.map Sign.kind, ?_, ?_⟩
  · simpa using fun x hx => (h x hx).isStatement
  · simp [List.flatMap_def, Function.comp_def]

theorem Item.Canonical.isItem {i : Item} (h : i.Canonical) : IsItem (i.print.map Sign.kind) := by
  cases i with
  | declaration v =>
    simpa [print, Sign.kind] using IsItem.declaration v.isVariable_kinds
  | definition v => simpa [print, Sign.kind] using IsItem.definition v.isVariable_kinds
  | prototype g => simpa [print, Sign.kind] using IsItem.prototype g.isSignature_kinds
  | function g body =>
    simpa [print, Sign.kind] using IsItem.function g.isSignature_kinds (Local.repeated_kinds h)

theorem exists_variable {v : List Token} (h : IsVariable (v.map Token.kind)) :
    ∃ x : Variable, Written x.print v := by
  obtain ⟨t, ht, hv⟩ := h
  obtain ⟨a, b, rfl, rfl, hb⟩ := List.map_eq_append_iff.mp hv
  obtain ⟨i, rfl, hi⟩ := List.map_eq_singleton_iff.mp hb
  have hi : Leaf.ofToken i = ⟨.ident, i.identifier?⟩ := by rw [Leaf.ofToken, hi]
  exact ⟨⟨.ofTokens a ht, i.identifier?⟩, (written_ofTokens a ht).append (.cons hi .nil)⟩

theorem exists_further {w : Word} (h : AreFurtherParameters w) :
    ∀ v : List Token, v.map Token.kind = w → ∃ vs, Written (Variable.printFurther vs) v := by
  induction h with
  | nil =>
    intro v hv
    exact ⟨[], by simp_all [Variable.printFurther, written_nil_iff]⟩
  | cons hx _ ih =>
    intro v hv
    obtain ⟨c, r, rfl, hc, hr⟩ := List.map_eq_cons_iff.mp hv
    obtain ⟨a, b, rfl, rfl, hb⟩ := List.map_eq_append_iff.mp hr
    obtain ⟨x, hx⟩ := exists_variable hx
    obtain ⟨vs, hvs⟩ := ih b hb
    refine ⟨x :: vs, ?_⟩
    rw [Variable.printFurther, List.flatMap_cons]
    exact List.Forall₂.cons hc (hx.append hvs)

theorem exists_parameters {v : List Token} (h : AreParameters (v.map Token.kind)) :
    ∃ vs, Written (Variable.printAll vs) v := by
  generalize hw : v.map Token.kind = w at h
  cases h with
  | none => exact ⟨[], by simp_all [Variable.printAll, written_nil_iff]⟩
  | some hx hf =>
    obtain ⟨a, b, rfl, rfl, hb⟩ := List.map_eq_append_iff.mp hw
    obtain ⟨x, hx⟩ := exists_variable hx
    obtain ⟨vs, hvs⟩ := exists_further hf b hb
    exact ⟨x :: vs, hx.append hvs⟩

theorem exists_signature {v : List Token} (h : IsSignature (v.map Token.kind)) :
    ∃ g : Signature, Written g.print v := by
  obtain ⟨h, p, hh, hp, hv⟩ := h
  obtain ⟨a, r, rfl, rfl, hr⟩ := List.map_eq_append_iff.mp hv
  obtain ⟨l, r, rfl, hl, hr⟩ := List.map_eq_cons_iff.mp hr
  obtain ⟨b, d, rfl, rfl, hd⟩ := List.map_eq_append_iff.mp hr
  obtain ⟨c, rfl, hc⟩ := List.map_eq_singleton_iff.mp hd
  obtain ⟨x, hx⟩ := exists_variable hh
  obtain ⟨vs, hvs⟩ := exists_parameters hp
  exact ⟨⟨x, vs⟩, hx.append (.cons hl (hvs.append (.cons hc .nil)))⟩

theorem Expression.print_ofLeaves (ls : List Leaf) : (ofLeaves ls).print = ls.map .leaf := by
  induction ls with
  | nil => rfl
  | cons l ls ih => simp [ofLeaves, print, ih]

theorem exists_expression {w : Word} (h : IsExpression w) :
    ∀ v : List Token, v.map Token.kind = w → ∃ e : Expression, e.Canonical ∧ Written e.print v := by
  induction h with
  | nil =>
    intro v hv
    exact ⟨.nil, trivial, by simp_all [Expression.print, written_nil_iff]⟩
  | operand hk _ ih =>
    intro v hv
    obtain ⟨t, r, rfl, rfl, hr⟩ := List.map_eq_cons_iff.mp hv
    obtain ⟨e, he, hw⟩ := ih r hr
    exact ⟨.leaf (Leaf.ofToken t) e, ⟨hk, he⟩, .cons rfl hw⟩
  | group _ _ ihi ihr =>
    intro v hv
    obtain ⟨l, r, rfl, hl, hr⟩ := List.map_eq_cons_iff.mp hv
    obtain ⟨a, r, rfl, ha, hr⟩ := List.map_eq_append_iff.mp hr
    obtain ⟨c, r, rfl, hc, hr⟩ := List.map_eq_cons_iff.mp hr
    obtain ⟨inner, hi, hwi⟩ := ihi a ha
    obtain ⟨rest, hr, hwr⟩ := ihr r hr
    by_cases ht : ∃ ls, inner = .ofLeaves ls ∧ IsType (ls.map Leaf.kind)
    · obtain ⟨ls, rfl, hty⟩ := ht
      rw [Expression.print_ofLeaves] at hwi
      exact ⟨.cast ⟨ls, hty⟩ rest, hr, .cons hl (hwi.append (.cons hc hwr))⟩
    · exact ⟨.group inner rest, ⟨fun ls he hty => ht ⟨ls, he, hty⟩, hi, hr⟩,
        .cons hl (hwi.append (.cons hc hwr))⟩

theorem exists_all {α : Type} {P : α → Prop} {print : α → List Sign} {ws : List Word}
    (h : ∀ w ∈ ws, ∀ v : List Token, v.map Token.kind = w → ∃ a, P a ∧ Written (print a) v) :
    ∀ v : List Token, v.map Token.kind = ws.flatten →
      ∃ as : List α, (∀ a ∈ as, P a) ∧ Written (as.flatMap print) v := by
  induction ws with
  | nil =>
    intro v hv
    exact ⟨[], by simp, by simp_all [written_nil_iff]⟩
  | cons w ws ih =>
    intro v hv
    obtain ⟨b, c, rfl, hb, hc⟩ := List.map_eq_append_iff.mp hv
    obtain ⟨a, ha, hw⟩ := h w (by simp) b hb
    obtain ⟨as, has, hws⟩ := ih (fun u hu => h u (by simp [hu])) c hc
    exact ⟨a :: as, by simpa [ha] using has, hw.append hws⟩

theorem exists_statement {w : Word} (h : IsStatement w) :
    ∀ v : List Token, v.map Token.kind = w → ∃ s : Statement, s.Canonical ∧ Written s.print v := by
  induction h with
  | compound _ ih =>
    intro v hv
    obtain ⟨l, r, rfl, hl, hr⟩ := List.map_eq_cons_iff.mp hv
    obtain ⟨b, r, rfl, hb, hr⟩ := List.map_eq_append_iff.mp hr
    obtain ⟨c, rfl, hc⟩ := List.map_eq_singleton_iff.mp hr
    obtain ⟨body, hcan, hw⟩ := exists_all ih b hb
    rw [← Statement.printAll_eq_flatMap] at hw
    exact ⟨.compound body, .compound hcan, .cons hl (hw.append (.cons hc .nil))⟩
  | ret he =>
    intro v hv
    obtain ⟨k, r, rfl, hk, hr⟩ := List.map_eq_cons_iff.mp hv
    obtain ⟨a, r, rfl, ha, hr⟩ := List.map_eq_append_iff.mp hr
    obtain ⟨c, rfl, hc⟩ := List.map_eq_singleton_iff.mp hr
    obtain ⟨e, he, hw⟩ := exists_expression he a ha
    have hk : Leaf.ofToken k = ⟨.kwReturn, k.identifier?⟩ := by rw [Leaf.ofToken, hk]
    exact ⟨.ret k.identifier? e, .ret he, .cons hk (hw.append (.cons hc .nil))⟩
  | expression he hs =>
    intro v hv
    obtain ⟨a, r, rfl, rfl, hr⟩ := List.map_eq_append_iff.mp hv
    obtain ⟨c, rfl, hc⟩ := List.map_eq_singleton_iff.mp hr
    obtain ⟨e, he, hw⟩ := exists_expression he a rfl
    rw [hw.kinds] at hs
    by_cases hr : ∃ l rest, e = .leaf l rest ∧ l.kind = .kwReturn
    · obtain ⟨⟨_, x⟩, rest, rfl, rfl⟩ := hr
      exact ⟨.ret x rest, .ret he.2, hw.append (.cons hc .nil)⟩
    · refine ⟨.expression e, .expression he fun l rest hl => ⟨fun hk => hr ⟨l, rest, hl, hk⟩, ?_⟩,
        hw.append (.cons hc .nil)⟩
      exact hs l.kind (by simp [hl, Expression.print, Sign.kind])

/-- Leaves that have the form of a variable are one. -/
theorem Variable.exists_of_leaves {ls : List Leaf} (h : IsVariable (ls.map Leaf.kind)) :
    ∃ v : Variable, v.print = ls.map .leaf := by
  obtain ⟨t, ht, hk⟩ := h
  obtain ⟨a, b, rfl, rfl, hb⟩ := List.map_eq_append_iff.mp hk
  obtain ⟨⟨_, x⟩, rfl, rfl⟩ := List.map_eq_singleton_iff.mp hb
  exact ⟨⟨⟨a, ht⟩, x⟩, by simp [print, TypeName.print, name]⟩

theorem exists_local {v : List Token} (h : IsStatement (v.map Token.kind)) :
    ∃ x : Local, x.Canonical ∧ Written x.print v := by
  obtain ⟨s, hs, hw⟩ := exists_statement h v rfl
  by_cases hv : ∃ ls, s = .expression (.ofLeaves ls) ∧ IsVariable (ls.map Leaf.kind)
  · obtain ⟨ls, rfl, hls⟩ := hv
    obtain ⟨x, hx⟩ := Variable.exists_of_leaves hls
    refine ⟨.definition x, trivial, ?_⟩
    rwa [Statement.print, Expression.print_ofLeaves, ← hx] at hw
  · exact ⟨.statement s, ⟨hs, fun ls he hk => hv ⟨ls, he, hk⟩⟩, hw⟩

theorem exists_body {v : List Token} (h : Repeated IsStatement (v.map Token.kind)) :
    ∃ body : List Local, (∀ x ∈ body, x.Canonical) ∧ Written (body.flatMap Local.print) v := by
  obtain ⟨ws, hws, hv⟩ := h
  exact exists_all (fun w hw u hu => exists_local (hu ▸ hws w hw)) v hv

theorem exists_item {v : List Token} (h : IsItem (v.map Token.kind)) :
    ∃ i : Item, i.Canonical ∧ Written i.print v := by
  generalize hw : v.map Token.kind = w at h
  cases h with
  | declaration hx =>
    obtain ⟨k, r, rfl, hk, hr⟩ := List.map_eq_cons_iff.mp hw
    obtain ⟨a, d, rfl, rfl, hd⟩ := List.map_eq_append_iff.mp hr
    obtain ⟨c, rfl, hc⟩ := List.map_eq_singleton_iff.mp hd
    obtain ⟨x, hx⟩ := exists_variable hx
    exact ⟨.declaration x, trivial, .cons hk (hx.append (.cons hc .nil))⟩
  | definition hx =>
    obtain ⟨a, d, rfl, rfl, hd⟩ := List.map_eq_append_iff.mp hw
    obtain ⟨c, rfl, hc⟩ := List.map_eq_singleton_iff.mp hd
    obtain ⟨⟨⟨ls, hty⟩, x⟩, hx⟩ := exists_variable hx
    by_cases he : ∃ l r, ls = l :: r ∧ l.kind = .kwExtern
    · obtain ⟨⟨_, _⟩, r, rfl, rfl⟩ := he
      obtain ⟨t, a, rfl, ht, ha⟩ := written_cons_iff.mp hx
      exact ⟨.declaration ⟨⟨r, hty.of_cons_extern⟩, x⟩, trivial,
        .cons (congrArg Leaf.kind ht) (ha.append (.cons hc .nil))⟩
    · refine ⟨.definition ⟨⟨ls, hty⟩, x⟩, fun l hl hk => he ?_, hx.append (.cons hc .nil)⟩
      cases ls with
      | nil => simp at hl
      | cons l' r => exact ⟨l', r, rfl, by simp_all⟩
  | prototype hg =>
    obtain ⟨a, d, rfl, rfl, hd⟩ := List.map_eq_append_iff.mp hw
    obtain ⟨c, rfl, hc⟩ := List.map_eq_singleton_iff.mp hd
    obtain ⟨g, hg⟩ := exists_signature hg
    exact ⟨.prototype g, trivial, hg.append (.cons hc .nil)⟩
  | function hg hb =>
    obtain ⟨a, r, rfl, rfl, hr⟩ := List.map_eq_append_iff.mp hw
    obtain ⟨l, r, rfl, hl, hr⟩ := List.map_eq_cons_iff.mp hr
    obtain ⟨b, d, rfl, rfl, hd⟩ := List.map_eq_append_iff.mp hr
    obtain ⟨c, rfl, hc⟩ := List.map_eq_singleton_iff.mp hd
    obtain ⟨g, hg⟩ := exists_signature hg
    obtain ⟨body, hcan, hbody⟩ := exists_body hb
    exact ⟨.function g body, hcan, hg.append (.cons hl (hbody.append (.cons hc .nil)))⟩

theorem TranslationUnit.Canonical.repeated_isItem {u : TranslationUnit} (h : u.Canonical) :
    Repeated IsItem (u.print.map Sign.kind) := by
  refine ⟨u.map fun i => i.print.map Sign.kind, ?_, ?_⟩
  · simpa using fun i hi => (h i hi).isItem
  · simp [TranslationUnit.print, List.flatMap_def, Function.comp_def]

end MiniC.Syntax
