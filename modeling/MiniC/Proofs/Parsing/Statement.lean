import MiniC.Proofs.Parsing.Expression

namespace MiniC

open Syntax Grammar

namespace Syntax

/-- With so many rules in progress, there is room to try all that the statement is made of. -/
inductive Statement.Fits (limit : Option Nat) : Nat → Statement → Prop where
  | compound {depth : Nat} {body : List Statement} : Room limit (depth + 1) →
      (∀ s ∈ body, Fits limit (depth + 1) s) → Fits limit depth (.compound body)
  | ret {depth : Nat} {text? : Option String} {value : Expression} : Room limit (depth + 2) →
      value.Fits limit (depth + 2) → Fits limit depth (.ret text? value)
  | expression {depth : Nat} {e : Expression} : Room limit (depth + 2) →
      e.Fits limit (depth + 2) → Fits limit depth (.expression e)

theorem Statement.Canonical.fits_none {st : Statement} (h : st.Canonical) (depth : Nat) :
    st.Fits none depth := by
  induction h generalizing depth with
  | compound _ ih => exact .compound (room_none _) fun s hs => ih s hs _
  | ret _ => exact .ret (room_none _) (Expression.fits_none _ _)
  | expression _ _ => exact .expression (room_none _) (Expression.fits_none _ _)

theorem Expression.Canonical.first_kind {e : Expression} (h : e.Canonical) {x : Token}
    {l r : List Token} (hw : WrittenUpTo (e.print ++ [.mark .semicolon]) (x :: l) r) :
    (∃ f rest, e = .leaf f rest ∧ x.kind = f.kind ∧ IsOperand x.kind) ∨ x.kind = .lParen ∨
      x.kind = .semicolon := by
  cases e with
  | nil => exact .inr (.inr (WrittenUpTo.of_cons hw).1)
  | leaf f rest =>
    have hk := (WrittenUpTo.of_cons hw).1.kind_eq
    exact .inl ⟨f, rest, rfl, hk, hk ▸ h.1⟩
  | cast ty rest => exact .inr (.inl (WrittenUpTo.of_cons hw).1)
  | group inner rest => exact .inr (.inl (WrittenUpTo.of_cons hw).1)

theorem Statement.exists_first {st : Statement} {l r : List Token}
    (h : WrittenUpTo st.print l r) : ∃ x m, l = x :: m := by
  cases st with
  | compound body =>
    obtain ⟨x, m, hx, -⟩ := WrittenUpTo.uncons h
    exact ⟨x, m, hx⟩
  | ret x value =>
    obtain ⟨x, m, hx, -⟩ := WrittenUpTo.uncons h
    exact ⟨x, m, hx⟩
  | expression e =>
    obtain ⟨m, he, hsemi⟩ := WrittenUpTo.split h
    obtain ⟨x, m, rfl, -⟩ := hsemi.uncons
    exact he.exists_cons

theorem Statement.Canonical.first_ne_rBrace {st : Statement} (h : st.Canonical) {l r : List Token}
    (hw : WrittenUpTo st.print l r) : ∃ x m, l = x :: m ∧ x.kind ≠ .rBrace := by
  obtain ⟨k, w, hk, hne⟩ := h.isStatement.exists_head
  have hkinds := hw.kinds
  rw [hk] at hkinds
  obtain ⟨x, m, rfl, rfl, -⟩ := List.map_eq_cons_iff.mp hkinds
  exact ⟨x, m, rfl, hne⟩

end Syntax

namespace Parser

variable {limit : Option Nat} {s t : State} {d d' : Draft} {n : Node}

theorem keeps_simpleStatement (limit : Option Nat) (d : Draft) : Keeps (simpleStatement limit d) := by
  intro s
  unfold simpleStatement
  split
  · exact keeps_refuseConstruct _ s
  · refine Keeps.andThen (keeps_optionalLeaf rfl _) (fun _ => ?_) s
    refine (keeps_expression limit).andThen fun _ => ?_
    exact (keeps_expect (by simp)).andThen fun _ => keeps_append _ _

theorem kept_statement
    (h : ∀ (d : Draft) (t : State), t.left < s.left → t.Kept (compound limit d t).final) :
    s.Kept (statement limit s).final := by
  rw [statement_eq]
  refine kept_tryRule (kept_bind (keeps_openNode _ _ _) fun d t ht => ?_)
  obtain ⟨rfl, rfl⟩ := step_eq_matched ht
  refine kept_bind ?_ fun _ _ _ => .refl _
  unfold statementParts
  split
  · next hb =>
    refine (State.kept_skip (by simp [hb])).trans (h _ _ ?_)
    exact State.left_skip_lt (s := ((s.enter .statement).openNode .statement 2).2) (by simp [hb])
  · exact keeps_simpleStatement _ _ _

theorem keeps_compound (limit : Option Nat) (d : Draft) : Keeps (compound limit d) := by
  intro s
  induction hn : s.left using Nat.strongRecOn generalizing d s with
  | ind n ih =>
    subst hn
    have ih (d : Draft) (t : State) (ht : t.left < s.left) := ih t.left ht d t rfl
    rw [compound_eq]
    split
    · next hb => exact State.kept_skip (by simp [hb])
    · have hs := kept_statement ih
      have hmore := kept_bind (f := fun inner => append d inner) hs fun _ _ _ => keeps_append _ _ _
      refine kept_bind hmore fun d' t ht => ih d' t ?_
      obtain ⟨inner, u, hu, hap⟩ := bind_eq_matched ht
      obtain ⟨rfl, rfl⟩ := step_eq_matched hap
      exact (show u.left < s.left from (consumes_statement limit).lt hu)

theorem keeps_statement (limit : Option Nat) : Keeps (statement limit) :=
  fun _ => kept_statement fun d t _ => keeps_compound limit d t

theorem returnLeaf_of_return (d : Draft) (h : s.nextKind = .kwReturn) :
    returnLeaf d s = ⟨.matched (s.addLeaf d).1, (s.addLeaf d).2⟩ := by
  rw [returnLeaf, optionalLeaf, if_pos (by simp [h])]
  rfl

theorem returnLeaf_of_ne (d : Draft) (h : s.nextKind ≠ .kwReturn) :
    returnLeaf d s = ⟨.matched d, s⟩ := by
  rw [returnLeaf, optionalLeaf, if_neg (by simp [h])]

theorem simpleStatement_of_plain (d : Draft) (h : Construct.ofStatement? s.nextKind = none) :
    simpleStatement limit d s =
      (returnLeaf d >>= fun d => expression limit >>= fun e => expect .semicolon >>= fun _ =>
        append d e) s := by
  unfold simpleStatement
  rw [h]

theorem simpleStatement_sound (hf : s.interner.Faithful)
    (h : simpleStatement limit d s = ⟨.matched d', t⟩) :
    ∃ (st : Statement) (cs : List Shape) (firsts : List Nat), st.Canonical ∧
      WrittenUpTo st.print s.pending t.pending ∧ d.Extends cs d' ∧
      st.shape = ⟨.statement, none, cs⟩ ∧ d.Gains (firsts.map s.lineOf) d' ∧
      st.firsts = 0 :: firsts ∧ ∀ depth, s.depth = depth + 1 → st.Fits limit depth := by
  cases hc : Construct.ofStatement? s.nextKind with
  | some c => simp [simpleStatement, hc, refuseConstruct] at h
  | none =>
    rw [simpleStatement_of_plain d hc] at h
    obtain ⟨d₁, s₁, h₁, k₁⟩ := bind_eq_matched h
    obtain ⟨inner, s₂, h₂, k₂⟩ := bind_eq_matched k₁
    obtain ⟨_, s₃, h₃, k₃⟩ := bind_eq_matched k₂
    obtain ⟨rfl, rfl⟩ := step_eq_matched k₃
    have hsemi : WrittenUpTo [.mark .semicolon] s₂.pending s₃.pending := expect_sound (by simp) h₃
    have hroom : Room limit (s₁.depth + 1) := by
      rw [expression_eq] at h₂
      exact room_of_matched h₂
    by_cases hk : s.nextKind = .kwReturn
    · obtain ⟨x, rest, hx, hxk⟩ := State.exists_pending hk (by simp)
      rw [returnLeaf_of_return d hk] at h₁
      obtain ⟨rfl, rfl⟩ := pure_eq_matched h₁
      have hleaf : Leaf.ofToken x = ⟨.kwReturn, x.identifier?⟩ := by rw [Leaf.ofToken, hxk]
      have hadd := s.extends_addLeaf d hf hx
      have hkept := State.kept_addLeaf d (show s.nextKind ≠ .eof by simp [hk])
      obtain ⟨e, he, hw, hn, -, hl, hfit⟩ := expression_sound (hkept.faithful hf) h₂
      rw [State.pending_addLeaf d hx] at hw
      rw [hkept.depth] at hroom hfit
      have hgains := (s.gains_addLeaf d).trans (.push _ inner)
      rw [hl, State.map_lineOf_addLeaf] at hgains
      refine ⟨.ret x.identifier? e, _, 0 :: behind 1 e.firsts, .ret he, ?_,
        hadd.trans (.push _ inner), ?_, hgains, rfl, fun depth hdepth => ?_⟩
      · rw [hx]
        exact .cons hleaf (hw.trans hsemi)
      · rw [hleaf, hn]
        rfl
      · rw [hdepth] at hroom hfit
        exact .ret hroom hfit
    · rw [returnLeaf_of_ne d hk] at h₁
      obtain ⟨rfl, rfl⟩ := pure_eq_matched h₁
      obtain ⟨e, he, hw, hn, -, hl, hfit⟩ := expression_sound hf h₂
      have hgains := Draft.Gains.push d₁ inner
      rw [hl] at hgains
      refine ⟨.expression e, _, e.firsts, .expression he ?_, hw.trans hsemi, .push d₁ inner, ?_,
        hgains, rfl, fun depth hdepth => ?_⟩
      · -- a statement that begins with neither keyword: each of them was looked for before
        intro l rest hl
        rw [hl] at hw
        obtain ⟨x, m, hx, hxl, -⟩ := WrittenUpTo.uncons hw
        rw [State.nextKind_of_pending hx, hxl.kind_eq] at hk hc
        exact ⟨hk, hc⟩
      · rw [hn]
        rfl
      · rw [hdepth] at hroom hfit
        exact .expression hroom hfit

/-- From `s` on, the statements of a compound one are read as they are written. -/
def CompoundSound (limit : Option Nat) (s : State) : Prop :=
  ∀ (d d' : Draft) (t : State), compound limit d s = ⟨.matched d', t⟩ →
    ∃ body : List Statement, (∀ st ∈ body, st.Canonical) ∧
      WrittenUpTo (body.flatMap Statement.print ++ [.mark .rBrace]) s.pending t.pending ∧
      d.Extends (body.map Statement.shape) d' ∧
      d.Gains ((rowFirsts Statement.print Statement.firsts body).map s.lineOf) d' ∧
      ∀ st ∈ body, st.Fits limit s.depth

theorem statement_sound_of (hf : s.interner.Faithful)
    (hcompound : ∀ t : State, t.left < s.left → t.interner.Faithful → CompoundSound limit t)
    (h : statement limit s = ⟨.matched n, t⟩) :
    ∃ st : Statement, st.Canonical ∧ WrittenUpTo st.print s.pending t.pending ∧
      n.shape = st.shape ∧ n.lines = st.firsts.map s.lineOf ∧ st.Fits limit s.depth := by
  rw [statement_eq] at h
  have hroom := room_of_matched h
  obtain ⟨u, k, hu⟩ := tryRule_eq_matched h
  obtain ⟨d, s₁, h₁, k₁⟩ := bind_eq_matched k
  obtain ⟨d', s₂, h₂, k₂⟩ := bind_eq_matched k₁
  obtain ⟨rfl, rfl⟩ := step_eq_matched h₁
  obtain ⟨rfl, rfl⟩ := pure_eq_matched k₂
  unfold statementParts at h₂
  let s₀ := ((s.enter .statement).openNode .statement 2).2
  split at h₂
  · next hb =>
    obtain ⟨x, rest, hx, hxk⟩ := State.exists_pending (s := s₀) hb (by simp)
    obtain ⟨body, hbody, hw, hd, hg, hfits⟩ := hcompound s₀.skip
      (State.left_skip_lt (s := s₀) (State.nextKind_ne_eof hx)) hf _ _ _ h₂
    rw [State.pending_skip hx, ← hu] at hw
    rw [State.map_lineOf_skip] at hg
    refine ⟨.compound body, .compound hbody, ?_, ?_, ?_, .compound hroom hfits⟩
    · rw [show s.pending = x :: rest from hx, Statement.print, Statement.printAll_eq_flatMap]
      exact .cons hxk hw
    · rw [hd.shape_close, Statement.shape, Statement.shapeAll_eq_map]
    · rw [hg.lines_close, Statement.firsts, Statement.firstsAll_eq, List.map_cons,
        State.lineOf_zero]
      rfl
  · obtain ⟨st, cs, firsts, hst, hw, hd, hsh, hg, hfirsts, hfit⟩ :=
      simpleStatement_sound (s := s₀) hf h₂
    rw [← hu] at hw
    refine ⟨st, hst, hw, by rw [hd.shape_close, hsh], ?_, hfit s.depth rfl⟩
    rw [hg.lines_close, hfirsts, List.map_cons, State.lineOf_zero]
    rfl

theorem compound_sound (limit : Option Nat) (s : State) (hf : s.interner.Faithful) :
    CompoundSound limit s := by
  induction hn : s.left using Nat.strongRecOn generalizing s with
  | ind n ih =>
    subst hn
    have ih (t : State) (ht : t.left < s.left) (hf : t.interner.Faithful) := ih t.left ht t hf rfl
    intro d d' t h
    rw [compound_eq] at h
    split at h
    · next hb =>
      obtain ⟨rfl, rfl⟩ := pure_eq_matched h
      obtain ⟨x, rest, hx, hxk⟩ := State.exists_pending hb (by simp)
      refine ⟨[], by simp, ?_, .refl _, .refl _, by simp⟩
      rw [hx, State.pending_skip hx]
      exact .single (g := .mark _) hxk rest
    · obtain ⟨d₁, s₁, h₁, k₁⟩ := bind_eq_matched h
      obtain ⟨inner, s₂, h₂, k₂⟩ := bind_eq_matched h₁
      obtain ⟨rfl, rfl⟩ := step_eq_matched k₂
      have hlt : s₂.left < s.left := (consumes_statement limit).lt h₂
      have hks := (keeps_statement limit).of_eq h₂
      have hk := hks.trans (State.kept_append s₂ d inner)
      -- the statement may itself hold statements, with fewer tokens left
      obtain ⟨st, hst, hw, hn, hl, hfit⟩ := statement_sound_of hf ih h₂
      obtain ⟨body, hbody, hwb, hd, hg, hfits⟩ :=
        ih (s₂.append d inner).2 hlt (hk.faithful hf) _ _ _ k₁
      rw [hk.depth] at hfits
      rw [hk.map_lineOf hw] at hg
      refine ⟨st :: body, ?_, ?_, ?_, ?_, ?_⟩
      · simpa using ⟨hst, hbody⟩
      · simpa using hw.trans hwb
      · rw [List.map_cons, ← hn]
        exact (Draft.Extends.push d inner).trans hd
      · rw [rowFirsts, List.map_append, ← hl]
        exact (Draft.Gains.push d inner).trans hg
      · simpa using ⟨hfit, hfits⟩

theorem statement_sound (hf : s.interner.Faithful) (h : statement limit s = ⟨.matched n, t⟩) :
    ∃ st : Statement, st.Canonical ∧ WrittenUpTo st.print s.pending t.pending ∧
      n.shape = st.shape ∧ n.lines = st.firsts.map s.lineOf ∧ st.Fits limit s.depth :=
  statement_sound_of hf (fun u _ hu => compound_sound limit u hu) h

theorem simpleStatement_complete_ret {x : Option String} {e : Expression} {rest : List Token}
    (d : Draft) (he : e.Canonical) (hroom : Room limit (s.depth + 1))
    (hfit : e.Fits limit (s.depth + 1)) (hf : s.interner.Faithful)
    (h : WrittenUpTo (Statement.ret x e).print s.pending rest) :
    ∃ d' t, simpleStatement limit d s = ⟨.matched d', t⟩ ∧ t.pending = rest ∧
      d.Extends [Leaf.shape ⟨.kwReturn, x⟩, e.shape] d' := by
  obtain ⟨y, m, hy, hl, hm⟩ := WrittenUpTo.uncons h
  have hn : s.nextKind = .kwReturn := (State.nextKind_of_pending hy).trans hl.kind_eq
  have hk := State.kept_addLeaf d (State.nextKind_ne_eof hy)
  rw [← hk.depth] at hroom hfit
  obtain ⟨m₁, hm₁, hsemi⟩ := WrittenUpTo.split hm
  rw [← State.pending_addLeaf d hy] at hm₁
  have hend := isEnd_of_written (.inl rfl) hsemi
  obtain ⟨inner, t, ht, rfl, hs⟩ := expression_complete he hroom hfit (hk.faithful hf) hm₁ hend
  obtain ⟨hexp, rfl⟩ := expect_complete hsemi
  refine ⟨(s.addLeaf d).1.push inner, (t.skip.append (s.addLeaf d).1 inner).2, ?_, rfl, ?_⟩
  · rw [simpleStatement_of_plain d (by rw [hn]; rfl)]
    refine (bind_of_matched (returnLeaf_of_return d hn)).trans ?_
    refine (bind_of_matched ht).trans ?_
    exact bind_of_matched hexp
  · have hadd := s.extends_addLeaf d hf hy
    rw [show Leaf.ofToken y = ⟨.kwReturn, x⟩ from hl] at hadd
    rw [← hs]
    exact hadd.trans (.push _ inner)

/-- An expression with its semicolon begins like no other statement. -/
theorem nextKind_of_expression {e : Expression} {rest : List Token} (he : e.Canonical)
    (hstart : e.StartsAsOperand)
    (h : WrittenUpTo (Statement.expression e).print s.pending rest) :
    s.nextKind ≠ .lBrace ∧ s.nextKind ≠ .kwReturn ∧ Construct.ofStatement? s.nextKind = none := by
  obtain ⟨x, l, hx⟩ := Statement.exists_first h
  rw [State.nextKind_of_pending hx]
  rw [hx] at h
  rcases he.first_kind h with ⟨f, e', rfl, hxf, ho⟩ | hk | hk
  · rw [hxf]
    refine ⟨fun hb => ?_, hstart f e' rfl⟩
    rw [hxf, hb] at ho
    exact absurd ho (by decide)
  · rw [hk]
    decide
  · rw [hk]
    decide

theorem simpleStatement_complete_expression {e : Expression} {rest : List Token}
    (d : Draft) (he : e.Canonical) (hstart : e.StartsAsOperand) (hroom : Room limit (s.depth + 1))
    (hfit : e.Fits limit (s.depth + 1)) (hf : s.interner.Faithful)
    (h : WrittenUpTo (Statement.expression e).print s.pending rest) :
    ∃ d' t, simpleStatement limit d s = ⟨.matched d', t⟩ ∧ t.pending = rest ∧
      d.Extends [e.shape] d' := by
  obtain ⟨m₁, hm₁, hsemi⟩ := WrittenUpTo.split h
  have hend := isEnd_of_written (.inl rfl) hsemi
  obtain ⟨-, hreturn, hplain⟩ := nextKind_of_expression he hstart h
  obtain ⟨inner, t, ht, rfl, hs⟩ := expression_complete he hroom hfit hf hm₁ hend
  obtain ⟨hexp, rfl⟩ := expect_complete hsemi
  refine ⟨d.push inner, (t.skip.append d inner).2, ?_, rfl, ?_⟩
  · rw [simpleStatement_of_plain d hplain]
    refine (bind_of_matched (returnLeaf_of_ne d hreturn)).trans ?_
    refine (bind_of_matched ht).trans ?_
    exact bind_of_matched hexp
  · rw [← hs]
    exact .push d inner

/-- The statement is read as it is written, whatever comes behind it. -/
def StatementRead (limit : Option Nat) (depth : Nat) (st : Statement) : Prop :=
  ∀ (s : State) (rest : List Token), s.depth = depth → s.interner.Faithful →
    WrittenUpTo st.print s.pending rest →
    ∃ n t, statement limit s = ⟨.matched n, t⟩ ∧ t.pending = rest ∧ n.shape = st.shape

theorem compound_read {body : List Statement} (hbody : ∀ st ∈ body, st.Canonical) :
    ∀ {s : State} {rest : List Token} (d : Draft), (∀ st ∈ body, StatementRead limit s.depth st) →
      s.interner.Faithful → WrittenUpTo (body.flatMap Statement.print) s.pending rest →
      ∃ d' t, compound limit d s = compound limit d' t ∧ s.Kept t ∧ t.pending = rest ∧
        d.Extends (body.map Statement.shape) d' := by
  induction body with
  | nil => exact fun {s rest} d _ _ h => ⟨d, s, rfl, .refl s, h.eq_of_nil, .refl d⟩
  | cons st body ih =>
    intro s rest d hread hf h
    obtain ⟨m, hm, hrest⟩ := WrittenUpTo.split (p := st.print) h
    obtain ⟨n, t, ht, rfl, hn⟩ := hread st (by simp) s _ rfl hf hm
    have hk := ((keeps_statement limit).of_eq ht).trans (State.kept_append t d n)
    obtain ⟨d', u, hu, hku, hp, hd⟩ := ih (fun st' hs => hbody st' (by simp [hs]))
      (s := (t.append d n).2) (d.push n)
      (fun st' hs => by rw [hk.depth]; exact hread st' (by simp [hs])) (hk.faithful hf) hrest
    obtain ⟨x, l, hx, hne⟩ := (hbody st (by simp)).first_ne_rBrace hm
    refine ⟨d', u, ?_, hk.trans hku, hp, ?_⟩
    · rw [compound_eq, if_neg (by rwa [State.nextKind_of_pending hx])]
      refine (bind_of_matched ?_).trans hu
      exact bind_of_matched ht
    · rw [List.map_cons, ← hn]
      exact (Draft.Extends.push d n).trans hd

theorem compound_of_rBrace (d : Draft) (h : s.nextKind = .rBrace) :
    compound limit d s = ⟨.matched d, s.skip⟩ := by
  rw [compound_eq, if_pos h]

theorem statement_of_parts {rest : List Token} {cs : List Shape}
    (hroom : Room limit (s.depth + 1))
    (h : ∃ d' t, statementParts limit (.empty .statement s.nextLine 2)
      ((s.enter .statement).openNode .statement 2).2 = ⟨.matched d', t⟩ ∧ t.pending = rest ∧
        (Draft.empty .statement s.nextLine 2).Extends cs d') :
    ∃ n t, statement limit s = ⟨.matched n, t⟩ ∧ t.pending = rest ∧
      n.shape = ⟨.statement, none, cs⟩ := by
  obtain ⟨d', t, ht, hp, hd⟩ := h
  refine ⟨d'.close, { t with depth := t.depth - 1 }, ?_, hp, hd.shape_close⟩
  rw [statement_eq]
  apply tryRule_of_matched hroom
  refine (bind_of_matched rfl).trans ?_
  exact bind_of_matched ht

theorem statementParts_of_ne (d : Draft) (h : s.nextKind ≠ .lBrace) :
    statementParts limit d s = simpleStatement limit d s := by
  rw [statementParts, if_neg h]

/-- Every canonical statement for which there is room is read as it is written. -/
theorem statement_read {st : Statement} (hst : st.Canonical) :
    ∀ {depth : Nat}, st.Fits limit depth → StatementRead limit depth st := by
  induction hst with
  | compound hbody ih =>
    intro depth hfits s rest hdepth hf h
    subst hdepth
    obtain ⟨hroom, hfits⟩ := hfits
    rw [Statement.print, Statement.printAll_eq_flatMap] at h
    obtain ⟨x, m, hx, hk, hm⟩ := WrittenUpTo.uncons h
    let s₀ := ((s.enter .statement).openNode .statement 2).2
    rw [← State.pending_skip (s := s₀) hx] at hm
    obtain ⟨m₁, hw, hbrace⟩ := hm.split
    -- each statement of the body is read by the hypothesis for it
    obtain ⟨d', u, hu, -, rfl, hd⟩ := compound_read hbody (s := s₀.skip)
      (.empty .statement s.nextLine 2) (fun st' hs => ih st' hs (hfits st' hs)) hf hw
    obtain ⟨y, m₂, hy, hyk, -⟩ := hbrace.uncons
    obtain ⟨-, hp⟩ := expect_complete hbrace
    rw [Statement.shape, Statement.shapeAll_eq_map]
    refine statement_of_parts hroom ⟨d', u.skip, ?_, hp, hd⟩
    rw [statementParts, if_pos ((State.nextKind_of_pending (s := s₀) hx).trans hk)]
    exact hu.trans (compound_of_rBrace d' ((State.nextKind_of_pending hy).trans hyk))
  | ret he =>
    intro depth hfits s rest hdepth hf h
    subst hdepth
    cases hfits with
    | ret hroom hfit =>
      let s₀ := ((s.enter .statement).openNode .statement 2).2
      have hne : s₀.nextKind ≠ .lBrace := by
        obtain ⟨x, m, hx, hk, -⟩ := WrittenUpTo.uncons h
        simp [State.nextKind_of_pending (s := s₀) hx, hk.kind_eq, Sign.kind]
      refine statement_of_parts (hroom.mono (by omega)) ?_
      rw [statementParts_of_ne _ hne]
      exact simpleStatement_complete_ret (s := s₀) _ he hroom hfit hf h
  | expression he hstart =>
    intro depth hfits s rest hdepth hf h
    subst hdepth
    cases hfits with
    | expression hroom hfit =>
      let s₀ := ((s.enter .statement).openNode .statement 2).2
      have hne : s₀.nextKind ≠ .lBrace := (nextKind_of_expression (s := s₀) he hstart h).1
      refine statement_of_parts (hroom.mono (by omega)) ?_
      rw [statementParts_of_ne _ hne]
      exact simpleStatement_complete_expression (s := s₀) _ he hstart hroom hfit hf h

theorem simpleStatement_eq_fatal {e : ParseError}
    (h : simpleStatement none d s = ⟨.fatal e, t⟩) :
    ∃ c line, e = .unsupported c line ∧ Construct.ofStatement? s.nextKind = some c := by
  cases hc : Construct.ofStatement? s.nextKind with
  | some c =>
    simp only [simpleStatement, hc, refuseConstruct, Result.mk.injEq, Outcome.fatal.injEq] at h
    exact ⟨c, s.nextLine, h.1.symm, rfl⟩
  | none =>
    rw [simpleStatement_of_plain d hc] at h
    refine absurd h (Mild.andThen (k := 0) (keeps_optionalLeaf rfl _) (mild_optionalLeaf _ _)
      (fun _ => ?_) s (room_none _) e t)
    refine .andThen (keeps_expression none) mild_expression fun _ => ?_
    exact .andThen (keeps_expect (by simp)) (mild_expect _) fun _ => mild_step _

/-- From `s` on, the statements of a compound one are given up at a keyword only. -/
def CompoundStalls (s : State) : Prop :=
  ∀ (d : Draft) (e : ParseError) (t : State), compound none d s = ⟨.fatal e, t⟩ →
    ∃ c line b w, e = .unsupported c line ∧ Repeated IsStatement b ∧ Stalls c w ∧ s.kinds = b ++ w

theorem statement_eq_fatal_of {e : ParseError} (hf : s.interner.Faithful)
    (hcompound : ∀ t : State, t.left < s.left → t.interner.Faithful → CompoundStalls t)
    (h : statement none s = ⟨.fatal e, t⟩) :
    ∃ c line, e = .unsupported c line ∧ Stalls c s.kinds := by
  rw [statement_eq] at h
  obtain ⟨u, hu, -⟩ := tryRule_eq_fatal (room_none _) h
  let s₀ := ((s.enter .statement).openNode .statement 2).2
  rcases bind_eq_fatal hu with hu | ⟨d, s₁, h₁, hu⟩
  · simp [openNode, step] at hu
  obtain ⟨rfl, rfl⟩ := step_eq_matched h₁
  rcases bind_eq_fatal hu with hu | ⟨d', s₂, -, hu⟩
  · unfold statementParts at hu
    split at hu
    · next hb =>
      obtain ⟨x, rest, hx, hxk⟩ := State.exists_pending (s := s₀) hb (by simp)
      obtain ⟨c, line, b, w, rfl, hb, hw, hk⟩ := hcompound s₀.skip
        (State.left_skip_lt (s := s₀) (State.nextKind_ne_eof hx)) hf _ _ _ hu
      refine ⟨c, line, rfl, ?_⟩
      have hs : s.kinds = .lBrace :: (b ++ w) := by
        rw [← hk, State.kinds, State.kinds, State.pending_skip hx, show s.pending = _ from hx]
        simp [hxk]
      rw [hs]
      exact .compound hb hw
    · obtain ⟨c, line, rfl, hc⟩ := simpleStatement_eq_fatal hu
      refine ⟨c, line, rfl, ?_⟩
      obtain ⟨x, rest, hx, hxk⟩ := State.exists_pending (s := s₀) rfl fun he => by
        rw [he] at hc
        simp [Construct.ofStatement?] at hc
      rw [State.kinds, show s.pending = _ from hx, List.map_cons]
      exact .keyword (hxk ▸ hc)
  · simp [pure_apply] at hu

theorem compound_stalls (s : State) (hf : s.interner.Faithful) : CompoundStalls s := by
  induction hn : s.left using Nat.strongRecOn generalizing s with
  | ind n ih =>
    subst hn
    have ih (t : State) (ht : t.left < s.left) (hf : t.interner.Faithful) := ih t.left ht t hf rfl
    intro d e t h
    rw [compound_eq] at h
    split at h
    · simp at h
    · rcases bind_eq_fatal h with h | ⟨d₁, s₁, h₁, h⟩
      · rcases bind_eq_fatal h with h | ⟨_, _, -, h⟩
        · obtain ⟨c, line, he, hw⟩ := statement_eq_fatal_of hf ih h
          exact ⟨c, line, [], _, he, .nil _, hw, rfl⟩
        · simp [append, step] at h
      · obtain ⟨inner, s₂, h₂, k₂⟩ := bind_eq_matched h₁
        obtain ⟨rfl, rfl⟩ := step_eq_matched k₂
        have hlt : s₂.left < s.left := (consumes_statement none).lt h₂
        have hk := ((keeps_statement none).of_eq h₂).trans (State.kept_append s₂ d inner)
        obtain ⟨st, hst, hp, -⟩ := statement_sound hf h₂
        obtain ⟨c, line, b, w, he, hb, hw, hbw⟩ :=
          ih (s₂.append d inner).2 hlt (hk.faithful hf) _ _ _ h
        refine ⟨c, line, _, w, he, .cons hst.isStatement hb, hw, ?_⟩
        rw [List.append_assoc, ← hbw]
        exact hp.kinds

theorem statement_eq_fatal {e : ParseError} (hf : s.interner.Faithful)
    (h : statement none s = ⟨.fatal e, t⟩) :
    ∃ c line, e = .unsupported c line ∧ Stalls c s.kinds :=
  statement_eq_fatal_of hf (fun u _ hu => compound_stalls u hu) h

theorem compound_of_repeated {b r : Word} (d : Draft) (hb : Repeated IsStatement b)
    (hf : s.interner.Faithful) (h : s.kinds = b ++ r) :
    ∃ d' t, compound none d s = compound none d' t ∧ t.interner.Faithful ∧ t.kinds = r := by
  obtain ⟨ws, hws, rfl⟩ := hb
  obtain ⟨v, rest, hp, hv, rfl⟩ := List.map_eq_append_iff.mp h
  obtain ⟨body, hbody, hw⟩ := exists_all
    (fun w hw u hu => exists_statement (hws w hw) u hu) v hv
  obtain ⟨d', t, ht, hk, hpt, -⟩ := compound_read hbody d
    (fun st hst => statement_read (hbody st hst) ((hbody st hst).fits_none _)) hf ⟨v, hw, hp⟩
  exact ⟨d', t, ht, hk.faithful hf, by rw [State.kinds, hpt]⟩

theorem statement_of_parts_fatal {e : ParseError} {u : State}
    (h : statementParts none (.empty .statement s.nextLine 2)
      ((s.enter .statement).openNode .statement 2).2 = ⟨.fatal e, u⟩) :
    ∃ t, statement none s = ⟨.fatal e, t⟩ := by
  refine ⟨{ u with depth := u.depth - 1 }, ?_⟩
  rw [statement_eq]
  apply tryRule_of_fatal (room_none _)
  refine (bind_of_matched rfl).trans ?_
  exact bind_of_fatal h

/-- At the keyword of a refused statement, where a statement is expected, the parse is given up. -/
theorem statement_of_stalls {c : Construct} {w : Word} (h : Stalls c w) :
    ∀ {s : State}, s.interner.Faithful → s.kinds = w →
      ∃ line t, statement none s = ⟨.fatal (.unsupported c line), t⟩ := by
  induction h with
  | @keyword k w hc =>
    intro s hf hk
    let s₀ := ((s.enter .statement).openNode .statement 2).2
    have hn : s₀.nextKind = k := State.nextKind_of_kinds (s := s₀) hk
    have hne : s₀.nextKind ≠ .lBrace := by
      rw [hn]
      rintro rfl
      simp [Construct.ofStatement?] at hc
    have hparts : statementParts none (.empty .statement s.nextLine 2) s₀ =
        refuseConstruct c s₀ := by
      rw [statementParts_of_ne _ hne, simpleStatement, hn, hc]
    exact ⟨s₀.nextLine, statement_of_parts_fatal hparts⟩
  | compound hb hw ih =>
    intro s hf hk
    let s₀ := ((s.enter .statement).openNode .statement 2).2
    have hn : s₀.nextKind = .lBrace := State.nextKind_of_kinds (s := s₀) hk
    obtain ⟨d', t, ht, hft, hkt⟩ := compound_of_repeated (s := s₀.skip)
      (.empty .statement s.nextLine 2) hb hf (State.kinds_skip (s := s₀) hk)
    obtain ⟨line, u, hu⟩ := ih hft hkt
    obtain ⟨k, w', rfl, hne⟩ := hw.exists_head
    refine ⟨line, statement_of_parts_fatal (u := u) ?_⟩
    rw [statementParts, if_pos hn]
    refine ht.trans ?_
    rw [compound_eq, if_neg (by rwa [State.nextKind_of_kinds hkt])]
    refine bind_of_fatal ?_
    exact bind_of_fatal hu

end Parser

end MiniC
