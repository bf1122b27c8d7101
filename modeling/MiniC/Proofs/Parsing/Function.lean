import MiniC.Proofs.Parsing.Statement

namespace MiniC

open Syntax Grammar

namespace Syntax.Local

/-- With so many rules in progress, there is room to try all that the item of a body is made of. -/
def Fits (limit : Option Nat) (depth : Nat) : Local → Prop
  | definition _ => True
  | statement st => st.Fits limit depth

theorem Canonical.fits_none {x : Local} (h : x.Canonical) (depth : Nat) : x.Fits none depth := by
  cases x with
  | definition v => trivial
  | statement st => exact h.1.fits_none depth

end Syntax.Local

namespace Syntax

theorem Variable.exists_leaves (v : Variable) :
    ∃ ls : List Leaf, v.print = ls.map .leaf ∧ IsVariable (ls.map Leaf.kind) ∧
      ∀ l ∈ ls, IsOperand l.kind := by
  refine ⟨v.type.leaves ++ [v.name], by simp [print, TypeName.print], ?_, fun l hl => ?_⟩
  · exact ⟨_, v.type.isType, by simp [name]⟩
  · rcases List.mem_append.mp hl with hl | hl
    · exact isOperand_of_isTypePart (v.type.isType.isTypePart_of_mem (List.mem_map_of_mem hl))
    · obtain rfl := List.mem_singleton.mp hl
      exact (by decide : IsOperand .ident)

/-- A statement in its canonical place is written by no definition of a variable. -/
theorem Local.Canonical.not_definition {st : Statement} (h : (Local.statement st).Canonical)
    {l r r' : List Token} (hw : WrittenUpTo st.print l r) (v : Variable) :
    ¬WrittenUpTo (v.print ++ [.mark .semicolon]) l r' := by
  intro hv
  obtain ⟨m, hm, hsemi⟩ := hv.split
  obtain ⟨x, l', rfl, hx⟩ := v.starts_with_typePart hm
  cases st with
  | compound body =>
    have hk : x.kind = .lBrace := (WrittenUpTo.of_cons hw).1
    rw [hk] at hx
    exact absurd hx (by decide)
  | ret y value =>
    have hk : x.kind = .kwReturn := (WrittenUpTo.of_cons hw).1.kind_eq
    rw [hk] at hx
    exact absurd hx (by decide)
  | expression e =>
    obtain ⟨ls, hls, hvar, hops⟩ := v.exists_leaves
    obtain ⟨m', he, hsemi'⟩ := WrittenUpTo.split hw
    rw [hls] at hm
    cases h.1 with
    | expression hcan _ =>
      have hend := isEnd_of_written (.inl rfl) hsemi
      have hend' := isEnd_of_written (.inl rfl) hsemi'
      have heq := Expression.eq_ofLeaves hcan hops he hm hend' hend
      exact h.2 ls (by rw [heq]) hvar

end Syntax

namespace Parser

variable {limit : Option Nat} {s t : State} {d d' : Draft} {n : Node}

theorem keeps_bodyItem (limit : Option Nat) : Keeps (bodyItem limit) :=
  (keeps_variableDefinition limit).orElse (keeps_statement limit)

theorem keeps_bodyItems (limit : Option Nat) (d : Draft) : Keeps (bodyItems limit d) := by
  intro s
  fun_induction bodyItems limit d s with
  | case1 => exact .refl _
  | case2 d s _ item t h pushed ih =>
    exact ((keeps_bodyItem limit).of_eq h).trans ((State.kept_append t d item).trans ih)
  | case3 d s _ t h => exact (keeps_bodyItem limit).of_eq h
  | case4 d s _ e t h => exact (keeps_bodyItem limit).of_eq h

theorem keeps_functionBody (limit : Option Nat) : Keeps (functionBody limit) :=
  Keeps.tryRule ((keeps_openNode _ _).andThen fun _ =>
    (keeps_bodyItems limit _).andThen fun _ => keeps_pure _) limit .functionBody

theorem keeps_functionDefinition (limit : Option Nat) : Keeps (functionDefinition limit) := by
  refine Keeps.tryRule ?_ limit .functionDefinition
  refine keeps_nextLine.andThen fun _ => ?_
  refine (keeps_signature limit).andThen fun _ => ?_
  refine (keeps_expect (by simp)).andThen fun _ => ?_
  refine (keeps_functionBody limit).andThen fun _ => ?_
  exact (keeps_expect (by simp)).andThen fun _ => keeps_nodeOf _ _ _

theorem variableDefinition_eq_mismatch (h : variableDefinition limit s = ⟨.mismatch, t⟩) :
    Room limit (s.depth + 2) ∧ t.pending = s.pending := by
  obtain ⟨-, hp, u, hu⟩ := tryRule_eq_mismatch h
  refine ⟨?_, hp⟩
  by_contra hr
  have hty : typeName limit (s.enter .variableDefinition) =
      (s.enter .variableDefinition).refuse .type := tryRule_of_full hr
  have hbody := (bind_of_matched (p := nextLine) rfl).symm.trans hu
  simp [bind_of_fatal hty] at hbody

theorem bodyItem_sound (hf : s.interner.Faithful) (h : bodyItem limit s = ⟨.matched n, t⟩) :
    ∃ x : Local, x.Canonical ∧ WrittenUpTo x.print s.pending t.pending ∧ n.shape = x.shape ∧
      n.lines = x.firsts.map s.lineOf ∧ x.Fits limit s.depth := by
  rcases orElse_eq_matched h with h | ⟨u, hu, h⟩
  · obtain ⟨v, hw, hn, hl⟩ := variableDefinition_sound hf h
    exact ⟨.definition v, trivial, hw, hn, hl, trivial⟩
  · obtain ⟨hroom, hp⟩ := variableDefinition_eq_mismatch hu
    have hk := (keeps_variableDefinition limit).of_eq hu
    obtain ⟨st, hst, hw, hn, hl, hfit⟩ := statement_sound (hk.faithful hf) h
    rw [hp] at hw
    rw [hk.lineOf_eq hp] at hl
    rw [hk.depth] at hfit
    refine ⟨.statement st, ⟨hst, fun ls hls hv => ?_⟩, hw, hn, hl, hfit⟩
    -- the definition of a variable would have been read as one
    obtain ⟨v, hv⟩ := Variable.exists_of_leaves hv
    rw [hls, Statement.print, Expression.print_ofLeaves, ← hv] at hw
    obtain ⟨m, u', hm, -⟩ := variableDefinition_complete hroom hf hw
    simp [hm] at hu

theorem bodyItems_sound (d : Draft) (s : State) :
    ∀ (d' : Draft) (t : State), s.interner.Faithful → bodyItems limit d s = ⟨.matched d', t⟩ →
      ∃ body : List Local, (∀ x ∈ body, x.Canonical) ∧
        WrittenUpTo (body.flatMap Local.print) s.pending t.pending ∧
        d.Extends (body.map Local.shape) d' ∧
        d.Gains ((rowFirsts Local.print Local.firsts body).map s.lineOf) d' ∧
        ∀ x ∈ body, x.Fits limit s.depth := by
  fun_induction bodyItems limit d s with
  | case1 d s _ =>
    intro d' t hf h
    obtain ⟨rfl, rfl⟩ := pure_eq_matched h
    exact ⟨[], by simp, .nil _, .refl _, .refl _, by simp⟩
  | case2 d s _ item u hu pushed ih =>
    intro d' t hf h
    have hk := ((keeps_bodyItem limit).of_eq hu).trans (State.kept_append u d item)
    obtain ⟨x, hx, hw, hn, hl, hfit⟩ := bodyItem_sound hf hu
    obtain ⟨body, hbody, hwb, hd, hg, hfits⟩ := ih d' t (hk.faithful hf) h
    rw [hk.depth] at hfits
    rw [hk.map_lineOf hw] at hg
    refine ⟨x :: body, by simpa using ⟨hx, hbody⟩, ?_, ?_, ?_, by simpa using ⟨hfit, hfits⟩⟩
    · exact hw.trans hwb
    · rw [List.map_cons, ← hn]
      exact (Draft.Extends.push d item).trans hd
    · rw [rowFirsts, List.map_append, ← hl]
      exact (Draft.Gains.push d item).trans hg
  | case3 => simp
  | case4 => simp

theorem functionBody_sound (hf : s.interner.Faithful)
    (h : functionBody limit s = ⟨.matched n, t⟩) :
    ∃ body : List Local, (∀ x ∈ body, x.Canonical) ∧
      WrittenUpTo (body.flatMap Local.print) s.pending t.pending ∧
      n.shape = ⟨.statementList, none, body.map Local.shape⟩ ∧
      n.lines = (0 :: rowFirsts Local.print Local.firsts body).map s.lineOf ∧
      ∀ x ∈ body, x.Fits limit (s.depth + 1) := by
  obtain ⟨u, k, hu⟩ := tryRule_eq_matched h
  obtain ⟨d, s₁, h₁, k₁⟩ := bind_eq_matched k
  obtain ⟨d', s₂, h₂, k₂⟩ := bind_eq_matched k₁
  obtain ⟨rfl, rfl⟩ := step_eq_matched h₁
  obtain ⟨rfl, rfl⟩ := pure_eq_matched k₂
  obtain ⟨body, hbody, hw, hd, hg, hfits⟩ := bodyItems_sound _ _ _ _ (by exact hf) h₂
  rw [← hu] at hw
  refine ⟨body, hbody, hw, hd.shape_close, ?_, hfits⟩
  rw [hg.lines_close, List.map_cons, State.lineOf_zero]
  rfl

theorem functionDefinition_sound (hf : s.interner.Faithful)
    (h : functionDefinition limit s = ⟨.matched n, t⟩) :
    ∃ g body, (Item.function g body).Canonical ∧
      WrittenUpTo (Item.function g body).print s.pending t.pending ∧
      n.shape = (Item.function g body).shape ∧
      n.lines = (Item.function g body).firsts.map s.lineOf ∧
      ∀ x ∈ body, x.Fits limit (s.depth + 2) := by
  obtain ⟨u, k, hu⟩ := tryRule_eq_matched h
  obtain ⟨line, s₁, h₁, k₁⟩ := bind_eq_matched k
  obtain ⟨parts, s₂, h₂, k₂⟩ := bind_eq_matched k₁
  obtain ⟨_, s₃, h₃, k₃⟩ := bind_eq_matched k₂
  obtain ⟨list, s₄, h₄, k₄⟩ := bind_eq_matched k₃
  obtain ⟨_, s₅, h₅, k₅⟩ := bind_eq_matched k₄
  obtain ⟨rfl, rfl⟩ := step_eq_matched h₁
  have hf₁ : (s.enter .functionDefinition).interner.Faithful := hf
  have hk := ((keeps_signature limit).of_eq h₂).trans ((keeps_expect (by simp)).of_eq h₃)
  obtain ⟨g, hg, hs, hl⟩ := signature_sound hf₁ h₂
  obtain ⟨body, hbody, hw, hsb, hlb, hfits⟩ := functionBody_sound (hk.faithful hf₁) h₄
  obtain ⟨hp, hn, hln⟩ := nodeOf_sound k₅
  have hopen := expect_sound (by simp) h₃
  have hclose := expect_sound (by simp) h₅
  rw [← hp, ← hu] at hclose
  rw [hk.depth] at hfits
  refine ⟨g, body, hbody, hg.trans (hopen.trans (hw.trans hclose)), ?_, ?_, hfits⟩
  · rw [hn, List.map_append, hs, Item.shape, List.map_singleton, hsb]
  · rw [hk.map_lineOf (hg.trans hopen), List.length_append] at hlb
    rw [hln, List.flatMap_append, hl, List.flatMap_singleton, hlb, Item.firsts, List.map_cons,
      List.map_append, State.lineOf_zero]
    rfl

theorem variableDefinition_mismatch (hroom : Room limit (s.depth + 2)) (hf : s.interner.Faithful)
    (h : ∀ (v : Variable) (rest : List Token),
      ¬WrittenUpTo (v.print ++ [.mark .semicolon]) s.pending rest) :
    ∃ t, variableDefinition limit s = ⟨.mismatch, t⟩ ∧ s.Kept t ∧ t.pending = s.pending := by
  obtain ⟨t, ht⟩ := (mild_variableDefinition limit).exists_mismatch hroom fun n t hn => by
    obtain ⟨v, hv, -⟩ := variableDefinition_sound hf hn
    exact h v t.pending hv
  exact ⟨t, ht, (keeps_variableDefinition limit).of_eq ht, (tryRule_eq_mismatch ht).2.1⟩

theorem bodyItem_complete {x : Local} {rest : List Token} (hx : x.Canonical)
    (hroom : Room limit (s.depth + 2)) (hfit : x.Fits limit s.depth) (hf : s.interner.Faithful)
    (h : WrittenUpTo x.print s.pending rest) :
    ∃ n t, bodyItem limit s = ⟨.matched n, t⟩ ∧ t.pending = rest ∧ n.shape = x.shape := by
  cases x with
  | definition v =>
    obtain ⟨n, t, ht, hp, hn⟩ := variableDefinition_complete hroom hf h
    exact ⟨n, t, orElse_of_matched ht, hp, hn⟩
  | statement st =>
    obtain ⟨u, hu, hk, hp⟩ := variableDefinition_mismatch hroom hf fun v r =>
      hx.not_definition h v
    obtain ⟨n, t, ht, hpt, hn⟩ := statement_read hx.1 hfit u rest hk.depth (hk.faithful hf)
      (by rwa [hp])
    exact ⟨n, t, (orElse_of_mismatch hu).trans ht, hpt, hn⟩

theorem bodyItems_read {body : List Local} :
    ∀ {s : State} {rest : List Token} (d : Draft), (∀ x ∈ body, x.Canonical) →
      Room limit (s.depth + 2) → (∀ x ∈ body, x.Fits limit s.depth) → s.interner.Faithful →
      WrittenUpTo (body.flatMap Local.print) s.pending rest →
      ∃ d' t, bodyItems limit d s = bodyItems limit d' t ∧ s.Kept t ∧ t.pending = rest ∧
        d.Extends (body.map Local.shape) d' := by
  induction body with
  | nil => exact fun {s rest} d _ _ _ _ h => ⟨d, s, rfl, .refl s, h.eq_of_nil, .refl d⟩
  | cons x body ih =>
    intro s rest d hbody hroom hfit hf h
    obtain ⟨m, hm, hrest⟩ := WrittenUpTo.split (p := x.print) h
    have hx := hbody x (by simp)
    obtain ⟨n, t, ht, rfl, hn⟩ := bodyItem_complete hx hroom (hfit x (by simp)) hf hm
    have hk := ((keeps_bodyItem limit).of_eq ht).trans (State.kept_append t d n)
    obtain ⟨d', u, hu, hku, hp, hd⟩ := ih (s := (t.append d n).2) (d.push n)
      (fun y hy => hbody y (by simp [hy])) (by rwa [hk.depth])
      (fun y hy => by rw [hk.depth]; exact hfit y (by simp [hy])) (hk.faithful hf) hrest
    have hnext : s.nextKind ≠ .rBrace := by
      obtain ⟨k, w, hkw, hne⟩ := hx.isStatement.exists_head
      have hkinds := hm.kinds
      rw [hkw] at hkinds
      rwa [State.nextKind_of_kinds hkinds]
    refine ⟨d', u, ?_, hk.trans hku, hp, ?_⟩
    · rw [bodyItems_eq, if_neg hnext]
      refine (bind_of_matched ?_).trans hu
      exact bind_of_matched ht
    · rw [List.map_cons, ← hn]
      exact (Draft.Extends.push d n).trans hd

theorem functionBody_complete {body : List Local} {x : Token} {rest : List Token}
    (hbody : ∀ y ∈ body, y.Canonical) (hroom : Room limit (s.depth + 3))
    (hfit : ∀ y ∈ body, y.Fits limit (s.depth + 1)) (hf : s.interner.Faithful)
    (h : WrittenUpTo (body.flatMap Local.print) s.pending (x :: rest)) (hx : x.kind = .rBrace) :
    ∃ n t, functionBody limit s = ⟨.matched n, t⟩ ∧ t.pending = x :: rest ∧
      n.shape = ⟨.statementList, none, body.map Local.shape⟩ := by
  let start := (s.enter .functionBody).openNode .statementList 4
  obtain ⟨d', t, ht, -, hp, hd⟩ :=
    bodyItems_read (s := start.2) start.1 hbody hroom hfit hf h
  have hm : bodyItems limit d' t = ⟨.matched d', t⟩ := by
    rw [bodyItems_eq, if_pos ((State.nextKind_of_pending hp).trans hx)]
  refine ⟨d'.close, { t with depth := t.depth - 1 }, ?_, hp, hd.shape_close⟩
  apply tryRule_of_matched (hroom.mono (by omega))
  refine (bind_of_matched rfl).trans ?_
  exact bind_of_matched (ht.trans hm)

theorem functionDefinition_complete {g : Signature} {body : List Local} {rest : List Token}
    (hbody : ∀ y ∈ body, y.Canonical) (hroom : Room limit (s.depth + 4))
    (hfit : ∀ y ∈ body, y.Fits limit (s.depth + 2)) (hf : s.interner.Faithful)
    (h : WrittenUpTo (Item.function g body).print s.pending rest) :
    ∃ n t, functionDefinition limit s = ⟨.matched n, t⟩ ∧ t.pending = rest ∧
      n.shape = (Item.function g body).shape := by
  let s₀ := s.enter .functionDefinition
  obtain ⟨m, hg, hm⟩ := h.split
  obtain ⟨m₁, hopen, hm₁⟩ := WrittenUpTo.split (p := [.mark .lBrace]) hm
  obtain ⟨m₂, hw, hclose⟩ := hm₁.split
  obtain ⟨x, m₃, rfl, hx, -⟩ := hclose.uncons
  obtain ⟨parts, s₁, h₁, rfl, hs⟩ :=
    signature_complete (s := s₀) (hroom.mono (by simp only [s₀, State.enter]; omega)) hf hg
  obtain ⟨h₂, rfl⟩ := expect_complete hopen
  have hk := ((keeps_signature limit).of_eq h₁).trans ((keeps_expect (by simp)).of_eq h₂)
  have hd : s₁.skip.depth = s.depth + 1 := hk.depth
  obtain ⟨list, s₃, h₃, hp₃, hsb⟩ := functionBody_complete (s := s₁.skip) hbody (by rwa [hd])
    (by rwa [hd]) (hk.faithful hf) hw hx
  obtain ⟨h₄, hp₄⟩ := expect_complete (hp₃ ▸ hclose)
  obtain ⟨n, s₅, h₅, hp₅, hn, -⟩ := nodeOf_spec .funcDef s₀.nextLine (parts ++ [list]) s₃.skip
  refine ⟨n, { s₅ with depth := s₅.depth - 1 }, ?_, hp₅.trans hp₄, ?_⟩
  · apply tryRule_of_matched (hroom.mono (by omega))
    refine (bind_of_matched rfl).trans ?_
    refine (bind_of_matched h₁).trans ?_
    refine (bind_of_matched h₂).trans ?_
    refine (bind_of_matched h₃).trans ?_
    exact (bind_of_matched h₄).trans h₅
  · rw [hn, List.map_append, hs, Item.shape, List.map_singleton, hsb]

theorem bodyItem_eq_fatal {e : ParseError} (hf : s.interner.Faithful)
    (h : bodyItem none s = ⟨.fatal e, t⟩) :
    ∃ c line, e = .unsupported c line ∧ Stalls c s.kinds := by
  rcases orElse_eq_fatal h with h | ⟨u, hu, h⟩
  · exact absurd h (mild_variableDefinition none s (room_none _) e t)
  · have hk := (keeps_variableDefinition none).of_eq hu
    obtain ⟨c, line, he, hs⟩ := statement_eq_fatal (hk.faithful hf) h
    refine ⟨c, line, he, ?_⟩
    rwa [State.kinds, (variableDefinition_eq_mismatch hu).2] at hs

theorem bodyItems_eq_fatal (d : Draft) (s : State) :
    ∀ (e : ParseError) (t : State), s.interner.Faithful → bodyItems none d s = ⟨.fatal e, t⟩ →
      ∃ c line b w, e = .unsupported c line ∧ Repeated IsStatement b ∧ Stalls c w ∧
        s.kinds = b ++ w := by
  fun_induction bodyItems none d s with
  | case1 => simp
  | case2 d s _ item u hu pushed ih =>
    intro e t hf h
    have hk := ((keeps_bodyItem none).of_eq hu).trans (State.kept_append u d item)
    obtain ⟨x, hx, hp, -⟩ := bodyItem_sound hf hu
    obtain ⟨c, line, b, w, he, hb, hw, hbw⟩ := ih e t (hk.faithful hf) h
    refine ⟨c, line, _, w, he, .cons hx.isStatement hb, hw, ?_⟩
    rw [List.append_assoc, ← hbw]
    exact hp.kinds
  | case3 => simp
  | case4 d s _ e u hu =>
    intro e' t hf h
    obtain ⟨rfl, rfl⟩ := Result.fatal_inj h
    obtain ⟨c, line, he, hw⟩ := bodyItem_eq_fatal hf hu
    exact ⟨c, line, [], _, he, .nil _, hw, rfl⟩

theorem functionBody_eq_fatal {e : ParseError} (hf : s.interner.Faithful)
    (h : functionBody none s = ⟨.fatal e, t⟩) :
    ∃ c line b w, e = .unsupported c line ∧ Repeated IsStatement b ∧ Stalls c w ∧
      s.kinds = b ++ w := by
  obtain ⟨u, hu, -⟩ := tryRule_eq_fatal (room_none _) h
  rcases bind_eq_fatal hu with hu | ⟨d, s₁, h₁, hu⟩
  · simp [openNode, step] at hu
  obtain ⟨rfl, rfl⟩ := step_eq_matched h₁
  rcases bind_eq_fatal hu with hu | ⟨d', s₂, -, hu⟩
  · exact bodyItems_eq_fatal _ ((s.enter .functionBody).openNode .statementList 4).2 e u hf hu
  · simp [pure_apply] at hu

/-- A function is given up in its body only. -/
theorem functionDefinition_eq_fatal {e : ParseError} (hf : s.interner.Faithful)
    (h : functionDefinition none s = ⟨.fatal e, t⟩) :
    ∃ c line, e = .unsupported c line ∧ StallsInBody c s.kinds := by
  obtain ⟨u, hu, -⟩ := tryRule_eq_fatal (room_none _) h
  rcases bind_eq_fatal hu with hu | ⟨line, s₁, h₁, hu⟩
  · simp [nextLine, step] at hu
  obtain ⟨rfl, rfl⟩ := step_eq_matched h₁
  have hf₁ : (s.enter .functionDefinition).interner.Faithful := hf
  rcases bind_eq_fatal hu with hu | ⟨parts, s₂, h₂, hu⟩
  · exact absurd hu (mild_signature none _ (room_none _) e u)
  rcases bind_eq_fatal hu with hu | ⟨_, s₃, h₃, hu⟩
  · exact absurd hu expect_ne_fatal
  have hk := ((keeps_signature none).of_eq h₂).trans ((keeps_expect (by simp)).of_eq h₃)
  rcases bind_eq_fatal hu with hu | ⟨list, s₄, -, hu⟩
  · obtain ⟨g, hg, -⟩ := signature_sound hf₁ h₂
    obtain ⟨c, line, b, w, he, hb, hw, hbw⟩ := functionBody_eq_fatal (hk.faithful hf₁) hu
    refine ⟨c, line, he, _, b, w, g.isSignature_kinds, hb, hw, ?_⟩
    have hkinds := (hg.trans (expect_sound (by simp) h₃)).kinds
    rw [show s₃.pending.map Token.kind = b ++ w from hbw] at hkinds
    rw [show s.kinds = _ from hkinds]
    simp [Sign.kind]
  rcases bind_eq_fatal hu with hu | ⟨_, s₅, -, hu⟩
  · exact absurd hu expect_ne_fatal
  · simp [nodeOf] at hu

theorem bodyItems_of_repeated {b r : Word} (d : Draft) (hb : Repeated IsStatement b)
    (hf : s.interner.Faithful) (h : s.kinds = b ++ r) :
    ∃ d' t, bodyItems none d s = bodyItems none d' t ∧ t.interner.Faithful ∧ t.kinds = r := by
  obtain ⟨v, rest, hp, rfl, rfl⟩ := List.map_eq_append_iff.mp h
  obtain ⟨body, hbody, hw⟩ := exists_body hb
  obtain ⟨d', t, ht, hk, hpt, -⟩ := bodyItems_read d hbody (room_none _)
    (fun x hx => (hbody x hx).fits_none _) hf ⟨v, hw, hp⟩
  exact ⟨d', t, ht, hk.faithful hf, by rw [State.kinds, hpt]⟩

theorem bodyItem_of_stalls {c : Construct} (hf : s.interner.Faithful) (h : Stalls c s.kinds) :
    ∃ line t, bodyItem none s = ⟨.fatal (.unsupported c line), t⟩ := by
  obtain ⟨u, hu, hk, hp⟩ := variableDefinition_mismatch (room_none _) hf fun v r hw => by
    obtain ⟨m, hm, -⟩ := hw.split
    obtain ⟨x, l, hx, hpart⟩ := v.starts_with_typePart hm
    rw [State.kinds, hx, List.map_cons] at h
    simp [h.head_not_typePart] at hpart
  obtain ⟨line, t, ht⟩ := statement_of_stalls h (hk.faithful hf) (by rw [State.kinds, hp]; rfl)
  exact ⟨line, t, (orElse_of_mismatch hu).trans ht⟩

theorem functionDefinition_of_stalls {c : Construct} (hf : s.interner.Faithful)
    (h : StallsInBody c s.kinds) :
    ∃ line t, functionDefinition none s = ⟨.fatal (.unsupported c line), t⟩ := by
  obtain ⟨g, b, w, hg, hb, hw, hk⟩ := h
  let s₀ := s.enter .functionDefinition
  obtain ⟨v, rest, hp, rfl, hrest⟩ := List.map_eq_append_iff.mp (show s₀.kinds = _ from hk)
  obtain ⟨x, m, rfl, hx, hm⟩ := List.map_eq_cons_iff.mp hrest
  obtain ⟨g', hg'⟩ := exists_signature hg
  obtain ⟨parts, s₁, h₁, hp₁, -⟩ := signature_complete (s := s₀) (room_none _) hf ⟨v, hg', hp⟩
  have h₂ := expect_of_pending hp₁ hx
  have hkept := ((keeps_signature none).of_eq h₁).trans ((keeps_expect (by simp)).of_eq h₂)
  have hkinds : s₁.skip.kinds = b ++ w := by rw [State.kinds, State.pending_skip hp₁, hm]
  let start := (s₁.skip.enter .functionBody).openNode .statementList 4
  obtain ⟨d', t, ht, hft, hkt⟩ :=
    bodyItems_of_repeated (s := start.2) start.1 hb (hkept.faithful hf) hkinds
  obtain ⟨line, u, hu⟩ := bodyItem_of_stalls hft (by rwa [hkt])
  obtain ⟨k, w', rfl, hne⟩ := hw.exists_head
  have hitems : bodyItems none d' t = ⟨.fatal (.unsupported c line), u⟩ := by
    rw [bodyItems_eq, if_neg (by rwa [State.nextKind_of_kinds hkt])]
    refine bind_of_fatal ?_
    exact bind_of_fatal hu
  have hbody : functionBody none s₁.skip =
      ⟨.fatal (.unsupported c line), { u with depth := u.depth - 1 }⟩ := by
    apply tryRule_of_fatal (room_none _)
    refine (bind_of_matched rfl).trans ?_
    exact bind_of_fatal (ht.trans hitems)
  refine ⟨line, { u with depth := u.depth - 1 - 1 }, ?_⟩
  refine tryRule_of_fatal (t := { u with depth := u.depth - 1 }) (room_none _) ?_
  refine (bind_of_matched rfl).trans ?_
  refine (bind_of_matched h₁).trans ?_
  refine (bind_of_matched h₂).trans ?_
  exact bind_of_fatal hbody

end Parser

end MiniC
