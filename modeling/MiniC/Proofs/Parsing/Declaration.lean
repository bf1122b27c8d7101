import MiniC.Proofs.Parsing.Type

namespace MiniC

open Syntax Grammar

namespace Parser

variable {limit : Option Nat} {s t : State} {d d' : Draft} {n : Node}

theorem keeps_identifier : Keeps identifier := by
  intro s
  unfold identifier
  split
  · next h => exact State.kept_takeLeaf (by simp [h])
  · exact .refl s

theorem keeps_variableDeclaration (limit : Option Nat) : Keeps (variableDeclaration limit) := by
  refine Keeps.tryRule ?_ limit .variableDeclaration
  refine keeps_nextLine.andThen fun _ => ?_
  refine (keeps_expect (by simp)).andThen fun _ => ?_
  refine (keeps_typeName limit).andThen fun _ => ?_
  refine keeps_identifier.andThen fun _ => ?_
  exact (keeps_expect (by simp)).andThen fun _ => keeps_nodeOf _ _ _

theorem keeps_variableDefinition (limit : Option Nat) : Keeps (variableDefinition limit) := by
  refine Keeps.tryRule ?_ limit .variableDefinition
  refine keeps_nextLine.andThen fun _ => ?_
  refine (keeps_typeName limit).andThen fun _ => ?_
  refine keeps_identifier.andThen fun _ => ?_
  exact (keeps_expect (by simp)).andThen fun _ => keeps_nodeOf _ _ _

theorem keeps_parameter (limit : Option Nat) (d : Draft) : Keeps (parameter limit d) := by
  refine (keeps_typeName limit).andThen fun _ => ?_
  refine keeps_identifier.andThen fun _ => ?_
  exact (keeps_append _ _).andThen fun _ => keeps_append _ _

theorem keeps_parameters (limit : Option Nat) (d : Draft) : Keeps (parameters limit d) := by
  intro s
  fun_induction parameters limit d s with
  | case1 _ _ _ _ h _ => exact (keeps_parameter _ _).of_eq h
  | case2 _ _ _ _ h _ hc ih =>
    exact ((keeps_parameter _ _).of_eq h).trans ((State.kept_skip (by simp [hc])).trans ih)
  | case3 _ _ _ _ h => exact (keeps_parameter _ _).of_eq h
  | case4 _ _ _ h => exact (keeps_parameter _ _).of_eq h
  | case5 _ _ _ _ h => exact (keeps_parameter _ _).of_eq h

theorem keeps_someParameters (limit : Option Nat) (d : Draft) : Keeps (someParameters limit d) := by
  intro s
  unfold someParameters
  split
  · exact .refl s
  · exact keeps_parameters limit d s

theorem keeps_parameterList (limit : Option Nat) : Keeps (parameterList limit) :=
  Keeps.tryRule ((keeps_openNode _ _).andThen fun _ =>
    (keeps_someParameters limit _).andThen fun _ => keeps_pure _) limit .parameterList

theorem keeps_signature (limit : Option Nat) : Keeps (signature limit) := by
  refine (keeps_typeName limit).andThen fun _ => ?_
  refine keeps_identifier.andThen fun _ => ?_
  refine (keeps_expect (by simp)).andThen fun _ => ?_
  refine (keeps_parameterList limit).andThen fun _ => ?_
  exact (keeps_expect (by simp)).andThen fun _ => keeps_pure _

theorem keeps_functionDeclaration (limit : Option Nat) : Keeps (functionDeclaration limit) := by
  refine Keeps.tryRule ?_ limit .functionDeclaration
  refine keeps_nextLine.andThen fun _ => ?_
  refine (keeps_signature limit).andThen fun _ => ?_
  exact (keeps_expect (by simp)).andThen fun _ => keeps_nodeOf _ _ _

theorem keeps_refusedDeclaration : Keeps refusedDeclaration := by
  intro s
  unfold refusedDeclaration
  split
  · exact keeps_refuseConstruct _ s
  · exact .refl s

theorem mild_identifier {k : Nat} : Mild limit k identifier := by
  refine .of_never fun s e t h => ?_
  unfold identifier at h
  split at h <;> simp [step] at h

theorem mild_variableDeclaration (limit : Option Nat) : Mild limit 2 (variableDeclaration limit) := by
  refine Mild.tryRule (k := 1) ?_ .variableDeclaration
  refine .andThen keeps_nextLine (mild_step _) fun _ => ?_
  refine .andThen (keeps_expect (by simp)) (mild_expect _) fun _ => ?_
  refine .andThen (keeps_typeName limit) (mild_typeName limit) fun _ => ?_
  refine .andThen keeps_identifier mild_identifier fun _ => ?_
  exact .andThen (keeps_expect (by simp)) (mild_expect _) fun _ => mild_nodeOf _ _ _

theorem mild_variableDefinition (limit : Option Nat) : Mild limit 2 (variableDefinition limit) := by
  refine Mild.tryRule (k := 1) ?_ .variableDefinition
  refine .andThen keeps_nextLine (mild_step _) fun _ => ?_
  refine .andThen (keeps_typeName limit) (mild_typeName limit) fun _ => ?_
  refine .andThen keeps_identifier mild_identifier fun _ => ?_
  exact .andThen (keeps_expect (by simp)) (mild_expect _) fun _ => mild_nodeOf _ _ _

theorem mild_parameter (limit : Option Nat) (d : Draft) : Mild limit 1 (parameter limit d) := by
  refine .andThen (keeps_typeName limit) (mild_typeName limit) fun _ => ?_
  refine .andThen keeps_identifier mild_identifier fun _ => ?_
  exact .andThen (keeps_append _ _) (mild_step _) fun _ => mild_step _

theorem mild_parameters (limit : Option Nat) (d : Draft) : Mild limit 1 (parameters limit d) := by
  intro s
  fun_induction parameters limit d s with
  | case1 => simp
  | case2 d s d' t h _ hc ih =>
    intro hr
    have hk := ((keeps_parameter _ _).of_eq h).trans (State.kept_skip (s := t) (by simp [hc]))
    exact ih (by rwa [hk.depth])
  | case3 => simp
  | case4 => simp
  | case5 d s e t h => exact fun hr => absurd h (mild_parameter limit d s hr e t)

theorem mild_someParameters (limit : Option Nat) (d : Draft) :
    Mild limit 1 (someParameters limit d) := by
  intro s hr
  unfold someParameters
  split
  · simp
  · exact mild_parameters limit d s hr

theorem mild_parameterList (limit : Option Nat) : Mild limit 2 (parameterList limit) := by
  refine Mild.tryRule (k := 1) ?_ .parameterList
  refine .andThen (keeps_openNode _ _) (mild_step _) fun _ => ?_
  exact .andThen (keeps_someParameters limit _) (mild_someParameters limit _) fun _ => mild_pure _

theorem mild_signature (limit : Option Nat) : Mild limit 2 (signature limit) := by
  refine .andThen (keeps_typeName limit) ((mild_typeName limit).mono (by omega)) fun _ => ?_
  refine .andThen keeps_identifier mild_identifier fun _ => ?_
  refine .andThen (keeps_expect (by simp)) (mild_expect _) fun _ => ?_
  refine .andThen (keeps_parameterList limit) (mild_parameterList limit) fun _ => ?_
  exact .andThen (keeps_expect (by simp)) (mild_expect _) fun _ => mild_pure _

theorem mild_functionDeclaration (limit : Option Nat) :
    Mild limit 3 (functionDeclaration limit) := by
  refine Mild.tryRule (k := 2) ?_ .functionDeclaration
  refine .andThen keeps_nextLine (mild_step _) fun _ => ?_
  refine .andThen (keeps_signature limit) (mild_signature limit) fun _ => ?_
  exact .andThen (keeps_expect (by simp)) (mild_expect _) fun _ => mild_nodeOf _ _ _

theorem identifier_sound (hf : s.interner.Faithful) (h : identifier s = ⟨.matched n, t⟩) :
    ∃ x, WrittenUpTo [.leaf ⟨.ident, x⟩] s.pending t.pending ∧
      n.shape = Leaf.shape ⟨.ident, x⟩ ∧ n.lines = [s.lineOf 0] := by
  unfold identifier at h
  split at h
  · next hk =>
    obtain ⟨x, rest, hx, hxk⟩ := State.exists_pending hk (by simp)
    obtain ⟨rfl, rfl⟩ := step_eq_matched h
    have hl : Leaf.ofToken x = ⟨.ident, x.identifier?⟩ := by rw [Leaf.ofToken, hxk]
    refine ⟨x.identifier?, ?_, by rw [State.shape_takeLeaf hf hx, hl], s.lines_takeLeaf⟩
    rw [hx, State.pending_takeLeaf hx]
    exact .single (g := .leaf _) hl rest
  · simp at h

theorem identifier_complete {x : Option String} {rest : List Token} (hf : s.interner.Faithful)
    (h : WrittenUpTo [.leaf ⟨.ident, x⟩] s.pending rest) :
    ∃ n t, identifier s = ⟨.matched n, t⟩ ∧ t.pending = rest ∧ n.shape = Leaf.shape ⟨.ident, x⟩ := by
  obtain ⟨y, m, hy, hl, hm⟩ := h.uncons
  have hk : s.nextKind = .ident := (State.nextKind_of_pending hy).trans (congrArg Leaf.kind hl)
  refine ⟨s.takeLeaf.1, s.takeLeaf.2, ?_, ?_, ?_⟩
  · rw [identifier, if_pos hk]
    rfl
  · rw [State.pending_takeLeaf hy, hm.eq_of_nil]
  · rw [State.shape_takeLeaf hf hy]
    exact congrArg Leaf.shape hl

theorem expect_sound {k : TokenKind} {u : Unit} (hk : k ≠ .eof)
    (h : expect k s = ⟨.matched u, t⟩) : WrittenUpTo [.mark k] s.pending t.pending := by
  obtain ⟨x, hx, hxk⟩ := expect_eq_matched hk h
  rw [hx]
  exact .single (g := .mark _) hxk _

theorem expect_complete {k : TokenKind} {rest : List Token}
    (h : WrittenUpTo [.mark k] s.pending rest) :
    expect k s = ⟨.matched (), s.skip⟩ ∧ s.skip.pending = rest := by
  obtain ⟨x, m, hx, hk, hm⟩ := h.uncons
  exact ⟨expect_of_pending hx hk, by rw [State.pending_skip hx, hm.eq_of_nil]⟩

theorem nodeOf_spec (kind : NodeKind) (line : Nat) (children : List Node) (s : State) :
    ∃ n t, nodeOf kind line children s = ⟨.matched n, t⟩ ∧ t.pending = s.pending ∧
      n.shape = ⟨kind, none, children.map Node.shape⟩ ∧
      n.lines = line :: children.flatMap Node.lines := by
  have fold (start : Draft × State) :
      let r := children.foldl (fun r child => r.2.append r.1 child) start
      start.1.Extends (children.map Node.shape) r.1 ∧
        start.1.Gains (children.flatMap Node.lines) r.1 ∧ r.2.pending = start.2.pending := by
    induction children generalizing start with
    | nil => exact ⟨.refl _, .refl _, rfl⟩
    | cons c cs ih =>
      obtain ⟨he, hg, hp⟩ := ih (start.2.append start.1 c)
      exact ⟨(Draft.Extends.push start.1 c).trans he, (Draft.Gains.push start.1 c).trans hg, hp⟩
  let d := Draft.empty kind line children.length
  obtain ⟨he, hg, hp⟩ := fold (d, s.withArena (s.arena.reserveAll d.requests))
  exact ⟨_, _, rfl, hp, he.shape_close, hg.lines_close⟩

theorem nodeOf_sound {kind : NodeKind} {line : Nat} {children : List Node}
    (h : nodeOf kind line children s = ⟨.matched n, t⟩) :
    t.pending = s.pending ∧ n.shape = ⟨kind, none, children.map Node.shape⟩ ∧
      n.lines = line :: children.flatMap Node.lines := by
  obtain ⟨n', t', h', hp, hn, hl⟩ := nodeOf_spec kind line children s
  obtain ⟨ho, rfl⟩ := Result.mk.inj (h'.symm.trans h)
  obtain rfl := Outcome.matched.inj ho
  exact ⟨hp, hn, hl⟩

theorem flatMap_pair (ty name : Node) :
    [ty, name].flatMap Node.lines = ty.lines ++ name.lines := by
  simp

theorem variable_sound {ty name : Node} {u : State} (hf : s.interner.Faithful)
    (hty : typeName limit s = ⟨.matched ty, t⟩) (hname : identifier t = ⟨.matched name, u⟩) :
    ∃ v : Variable, WrittenUpTo v.print s.pending u.pending ∧
      [ty.shape, name.shape] = v.shapes ∧
      ty.lines ++ name.lines = v.firsts.map s.lineOf := by
  have hk := (keeps_typeName limit).of_eq hty
  obtain ⟨type, hp, hs, hl⟩ := typeName_sound hf hty
  obtain ⟨x, hpx, hx, hlx⟩ := identifier_sound (hk.faithful hf) hname
  refine ⟨⟨type, x⟩, hp.trans hpx, by rw [hs, hx]; rfl, ?_⟩
  rw [hl, hlx, hk.lineOf hp, Variable.firsts, List.map_append]
  rfl

theorem variable_complete {v : Variable} {rest : List Token} (hroom : Room limit (s.depth + 1))
    (hf : s.interner.Faithful) (h : WrittenUpTo v.print s.pending rest) :
    ∃ ty t name u, typeName limit s = ⟨.matched ty, t⟩ ∧ identifier t = ⟨.matched name, u⟩ ∧
      u.pending = rest ∧ [ty.shape, name.shape] = v.shapes := by
  obtain ⟨m, hm, hrest⟩ := h.split
  obtain ⟨x, m', rfl, hx, -⟩ := hrest.uncons
  obtain ⟨ty, t, hty, hp, hs⟩ := typeName_complete hroom hf hm (.inl (congrArg Leaf.kind hx))
  obtain ⟨name, u, hname, hu, hsn⟩ := identifier_complete
    (((keeps_typeName limit).of_eq hty).faithful hf) (hp ▸ hrest)
  exact ⟨ty, t, name, u, hty, hname, hu, by rw [hs, hsn]; rfl⟩

theorem variableDeclaration_sound (hf : s.interner.Faithful)
    (h : variableDeclaration limit s = ⟨.matched n, t⟩) :
    ∃ v, WrittenUpTo (Item.declaration v).print s.pending t.pending ∧
      n.shape = (Item.declaration v).shape ∧
      n.lines = (Item.declaration v).firsts.map s.lineOf := by
  obtain ⟨u, k, hu⟩ := tryRule_eq_matched h
  obtain ⟨line, s₁, h₁, k₁⟩ := bind_eq_matched k
  obtain ⟨_, s₂, h₂, k₂⟩ := bind_eq_matched k₁
  obtain ⟨ty, s₃, h₃, k₃⟩ := bind_eq_matched k₂
  obtain ⟨name, s₄, h₄, k₄⟩ := bind_eq_matched k₃
  obtain ⟨_, s₅, h₅, k₅⟩ := bind_eq_matched k₄
  obtain ⟨rfl, rfl⟩ := step_eq_matched h₁
  have hk := (keeps_expect (by simp)).of_eq h₂
  have hext := expect_sound (by simp) h₂
  obtain ⟨v, hv, hs, hl⟩ := variable_sound (hk.faithful hf) h₃ h₄
  obtain ⟨hp, hn, hln⟩ := nodeOf_sound k₅
  have hsemi := expect_sound (by simp) h₅
  rw [← hp, ← hu] at hsemi
  refine ⟨v, hext.trans (hv.trans hsemi), ?_, ?_⟩
  · rw [hn, Item.shape, ← hs]
    rfl
  · rw [hln, flatMap_pair, hl, hk.map_lineOf hext, Item.firsts, List.map_cons, State.lineOf_zero]
    rfl

theorem variableDefinition_sound (hf : s.interner.Faithful)
    (h : variableDefinition limit s = ⟨.matched n, t⟩) :
    ∃ v, WrittenUpTo (Item.definition v).print s.pending t.pending ∧
      n.shape = (Item.definition v).shape ∧
      n.lines = (Item.definition v).firsts.map s.lineOf := by
  obtain ⟨u, k, hu⟩ := tryRule_eq_matched h
  obtain ⟨line, s₁, h₁, k₁⟩ := bind_eq_matched k
  obtain ⟨ty, s₃, h₃, k₃⟩ := bind_eq_matched k₁
  obtain ⟨name, s₄, h₄, k₄⟩ := bind_eq_matched k₃
  obtain ⟨_, s₅, h₅, k₅⟩ := bind_eq_matched k₄
  obtain ⟨rfl, rfl⟩ := step_eq_matched h₁
  have hf₁ : (s.enter .variableDefinition).interner.Faithful := hf
  obtain ⟨v, hv, hs, hl⟩ := variable_sound hf₁ h₃ h₄
  obtain ⟨hp, hn, hln⟩ := nodeOf_sound k₅
  have hsemi := expect_sound (by simp) h₅
  rw [← hp, ← hu] at hsemi
  refine ⟨v, hv.trans hsemi, ?_, ?_⟩
  · rw [hn, Item.shape, ← hs]
    rfl
  · rw [hln, flatMap_pair, hl, Item.firsts, List.map_cons, State.lineOf_zero]
    rfl

theorem variableDeclaration_complete {v : Variable} {rest : List Token}
    (hroom : Room limit (s.depth + 2)) (hf : s.interner.Faithful)
    (h : WrittenUpTo (Item.declaration v).print s.pending rest) :
    ∃ n t, variableDeclaration limit s = ⟨.matched n, t⟩ ∧ t.pending = rest ∧
      n.shape = (Item.declaration v).shape := by
  let s₀ := s.enter .variableDeclaration
  obtain ⟨m, hm, hv⟩ := WrittenUpTo.split (p := [.mark .kwExtern]) h
  obtain ⟨h₁, hp₁⟩ := expect_complete (s := s₀) hm
  subst hp₁
  obtain ⟨m, hv, hsemi⟩ := hv.split
  obtain ⟨ty, s₂, name, s₃, h₂, h₃, hp₃, hs⟩ := variable_complete (s := s₀.skip) hroom hf hv
  subst hp₃
  obtain ⟨h₄, hp₄⟩ := expect_complete hsemi
  obtain ⟨n, s₅, h₅, hp₅, hn, -⟩ := nodeOf_spec .varDecl s₀.nextLine [ty, name] s₃.skip
  refine ⟨n, { s₅ with depth := s₅.depth - 1 }, ?_, hp₅.trans hp₄, ?_⟩
  · apply tryRule_of_matched (hroom.mono (by omega))
    refine (bind_of_matched rfl).trans ?_
    refine (bind_of_matched h₁).trans ?_
    refine (bind_of_matched h₂).trans ?_
    refine (bind_of_matched h₃).trans ?_
    exact (bind_of_matched h₄).trans h₅
  · rw [hn, Item.shape, ← hs]
    rfl

theorem variableDefinition_complete {v : Variable} {rest : List Token}
    (hroom : Room limit (s.depth + 2)) (hf : s.interner.Faithful)
    (h : WrittenUpTo (Item.definition v).print s.pending rest) :
    ∃ n t, variableDefinition limit s = ⟨.matched n, t⟩ ∧ t.pending = rest ∧
      n.shape = (Item.definition v).shape := by
  let s₀ := s.enter .variableDefinition
  obtain ⟨m, hv, hsemi⟩ := h.split
  obtain ⟨ty, s₂, name, s₃, h₂, h₃, hp₃, hs⟩ := variable_complete (s := s₀) hroom hf hv
  subst hp₃
  obtain ⟨h₄, hp₄⟩ := expect_complete hsemi
  obtain ⟨n, s₅, h₅, hp₅, hn, -⟩ := nodeOf_spec .varDef s₀.nextLine [ty, name] s₃.skip
  refine ⟨n, { s₅ with depth := s₅.depth - 1 }, ?_, hp₅.trans hp₄, ?_⟩
  · apply tryRule_of_matched (hroom.mono (by omega))
    refine (bind_of_matched rfl).trans ?_
    refine (bind_of_matched h₂).trans ?_
    refine (bind_of_matched h₃).trans ?_
    exact (bind_of_matched h₄).trans h₅
  · rw [hn, Item.shape, ← hs]
    rfl

theorem parameter_sound (hf : s.interner.Faithful)
    (h : parameter limit d s = ⟨.matched d', t⟩) :
    ∃ v : Variable, WrittenUpTo v.print s.pending t.pending ∧ d.Extends v.shapes d' ∧
      d.Gains (v.firsts.map s.lineOf) d' := by
  obtain ⟨ty, s₁, h₁, k₁⟩ := bind_eq_matched h
  obtain ⟨name, s₂, h₂, k₂⟩ := bind_eq_matched k₁
  obtain ⟨d₃, s₃, h₃, h₄⟩ := bind_eq_matched k₂
  obtain ⟨rfl, rfl⟩ := step_eq_matched h₃
  obtain ⟨rfl, rfl⟩ := step_eq_matched h₄
  obtain ⟨v, hv, hs, hl⟩ := variable_sound hf h₁ h₂
  refine ⟨v, hv, ?_, ?_⟩
  · rw [← hs]
    exact (Draft.Extends.push d ty).trans (.push _ name)
  · rw [← hl]
    exact (Draft.Gains.push d ty).trans (.push _ name)

theorem parameter_complete {v : Variable} {rest : List Token} (d : Draft)
    (hroom : Room limit (s.depth + 1)) (hf : s.interner.Faithful)
    (h : WrittenUpTo v.print s.pending rest) :
    ∃ d' t, parameter limit d s = ⟨.matched d', t⟩ ∧ t.pending = rest ∧
      d.Extends v.shapes d' := by
  obtain ⟨ty, s₁, name, s₂, h₁, h₂, hp, hs⟩ := variable_complete hroom hf h
  refine ⟨(d.push ty).push name, ((s₂.append d ty).2.append (d.push ty) name).2, ?_, hp, ?_⟩
  · exact (bind_of_matched h₁).trans (bind_of_matched h₂)
  · rw [← hs]
    exact (Draft.Extends.push d ty).trans (.push _ name)

theorem parameters_sound (d : Draft) (s : State) :
    ∀ {d' : Draft} {t : State}, s.interner.Faithful → parameters limit d s = ⟨.matched d', t⟩ →
      ∃ v vs, WrittenUpTo (Variable.printAll (v :: vs)) s.pending t.pending ∧
        d.Extends ((v :: vs).flatMap Variable.shapes) d' ∧
        d.Gains ((Variable.allFirsts (v :: vs)).map s.lineOf) d' := by
  fun_induction parameters limit d s with
  | case1 d s d₁ t h hk =>
    intro d' t' hf he
    obtain ⟨rfl, rfl⟩ := pure_eq_matched he
    obtain ⟨v, hv, hd, hg⟩ := parameter_sound hf h
    refine ⟨v, [], ?_, by simpa using hd, ?_⟩
    · simpa [Variable.printAll, Variable.printFurther] using hv
    · simpa [Variable.allFirsts, Variable.furtherFirsts, behind] using hg
  | case2 d s d₁ t h hk hc ih =>
    intro d' t' hf he
    have hkt := (keeps_parameter _ _).of_eq h
    have hk := hkt.trans (State.kept_skip (s := t) (by simp [hc]))
    obtain ⟨w, ws, hw, hdw, hgw⟩ := ih (hk.faithful hf) he
    obtain ⟨v, hv, hd, hg⟩ := parameter_sound hf h
    have hcomma : expect .comma t = ⟨.matched (), t.skip⟩ := by rw [expect, if_pos hc]
    refine ⟨v, w :: ws, ?_, by simpa using hd.trans hdw, ?_⟩
    · have := hv.trans ((expect_sound (by simp) hcomma).trans hw)
      simpa [Variable.printAll, Variable.printFurther] using this
    · rw [State.map_lineOf_skip, hkt.map_lineOf hv] at hgw
      have hall := hg.trans hgw
      rwa [← List.map_append] at hall
  | case3 => simp
  | case4 => simp
  | case5 => simp

theorem parameters_of_matched (h : parameter limit d s = ⟨.matched d', t⟩) :
    parameters limit d s =
      if t.nextKind = .rParen then ⟨.matched d', t⟩
      else if t.nextKind = .comma then parameters limit d' t.skip
      else ⟨.mismatch, t⟩ := by
  rw [parameters_eq, bind_of_matched h]

theorem parameters_complete {rest : List Token} {x : Token} (hx : x.kind = .rParen)
    (vs : List Variable) :
    ∀ {v : Variable} {s : State} (d : Draft), Room limit (s.depth + 1) → s.interner.Faithful →
      WrittenUpTo (Variable.printAll (v :: vs)) s.pending (x :: rest) →
      ∃ d' t, parameters limit d s = ⟨.matched d', t⟩ ∧ t.pending = x :: rest ∧
        d.Extends ((v :: vs).flatMap Variable.shapes) d' := by
  induction vs with
  | nil =>
    intro v s d hroom hf h
    obtain ⟨d', t, ht, hp, hd⟩ := parameter_complete d hroom hf
      (by simpa [Variable.printAll, Variable.printFurther] using h)
    refine ⟨d', t, ?_, hp, by simpa using hd⟩
    rw [parameters_of_matched ht, if_pos ((State.nextKind_of_pending hp).trans hx)]
  | cons w ws ih =>
    intro v s d hroom hf h
    obtain ⟨m, hv, hm⟩ := WrittenUpTo.split (p := v.print) h
    obtain ⟨c, m', rfl, hc, hw⟩ := hm.uncons
    obtain ⟨d₁, t, ht, hp, hd⟩ := parameter_complete d hroom hf hv
    have hk := (keeps_parameter _ _).of_eq ht
    have hn : t.nextKind = .comma := (State.nextKind_of_pending hp).trans hc
    have hskip := hk.trans (State.kept_skip (State.nextKind_ne_eof hp))
    obtain ⟨d', u, hu, hpu, hdu⟩ := ih (v := w) (s := t.skip) d₁ (by rwa [hskip.depth])
      (hskip.faithful hf) (by rwa [State.pending_skip hp])
    refine ⟨d', u, ?_, hpu, by simpa using hd.trans hdu⟩
    rw [parameters_of_matched ht, if_neg (by simp [hn]), if_pos hn]
    exact hu

theorem someParameters_sound (hf : s.interner.Faithful)
    (h : someParameters limit d s = ⟨.matched d', t⟩) :
    ∃ vs, WrittenUpTo (Variable.printAll vs) s.pending t.pending ∧
      d.Extends (vs.flatMap Variable.shapes) d' ∧
      d.Gains ((Variable.allFirsts vs).map s.lineOf) d' := by
  unfold someParameters at h
  split at h
  · obtain ⟨rfl, rfl⟩ := pure_eq_matched h
    exact ⟨[], .nil _, .refl _, .refl _⟩
  · obtain ⟨v, vs, hp, hd, hg⟩ := parameters_sound d s hf h
    exact ⟨v :: vs, hp, hd, hg⟩

theorem someParameters_complete {vs : List Variable} {x : Token} {rest : List Token} (d : Draft)
    (hroom : Room limit (s.depth + 1)) (hf : s.interner.Faithful)
    (h : WrittenUpTo (Variable.printAll vs) s.pending (x :: rest)) (hx : x.kind = .rParen) :
    ∃ d' t, someParameters limit d s = ⟨.matched d', t⟩ ∧ t.pending = x :: rest ∧
      d.Extends (vs.flatMap Variable.shapes) d' := by
  cases vs with
  | nil =>
    have hp := h.eq_of_nil
    refine ⟨d, s, ?_, hp, .refl d⟩
    rw [someParameters, if_pos ((State.nextKind_of_pending hp).trans hx)]
  | cons v vs =>
    obtain ⟨d', t, ht, hp, hd⟩ := parameters_complete hx vs d hroom hf h
    refine ⟨d', t, ?_, hp, hd⟩
    obtain ⟨m, hv, -⟩ := WrittenUpTo.split (p := v.print) h
    obtain ⟨y, m', hy, hpart⟩ := v.starts_with_typePart hv
    have hn : s.nextKind ≠ .rParen := by
      rw [State.nextKind_of_pending hy]
      intro hk
      rw [hk] at hpart
      exact absurd hpart (by decide)
    rw [someParameters, if_neg hn, ht]

theorem parameterList_sound (hf : s.interner.Faithful)
    (h : parameterList limit s = ⟨.matched n, t⟩) :
    ∃ vs, WrittenUpTo (Variable.printAll vs) s.pending t.pending ∧
      n.shape = ⟨.paramList, none, vs.flatMap Variable.shapes⟩ ∧
      n.lines = (0 :: Variable.allFirsts vs).map s.lineOf := by
  obtain ⟨u, k, hu⟩ := tryRule_eq_matched h
  obtain ⟨d, s₁, h₁, k₁⟩ := bind_eq_matched k
  obtain ⟨d', s₂, h₂, k₂⟩ := bind_eq_matched k₁
  obtain ⟨rfl, rfl⟩ := step_eq_matched h₁
  obtain ⟨rfl, rfl⟩ := pure_eq_matched k₂
  have hf₁ : ((s.enter .parameterList).openNode .paramList 4).2.interner.Faithful := hf
  obtain ⟨vs, hp, hd, hg⟩ := someParameters_sound hf₁ h₂
  rw [← hu] at hp
  refine ⟨vs, hp, hd.shape_close, ?_⟩
  rw [hg.lines_close, List.map_cons, State.lineOf_zero]
  rfl

theorem parameterList_complete {vs : List Variable} {x : Token} {rest : List Token}
    (hroom : Room limit (s.depth + 2)) (hf : s.interner.Faithful)
    (h : WrittenUpTo (Variable.printAll vs) s.pending (x :: rest)) (hx : x.kind = .rParen) :
    ∃ n t, parameterList limit s = ⟨.matched n, t⟩ ∧ t.pending = x :: rest ∧
      n.shape = ⟨.paramList, none, vs.flatMap Variable.shapes⟩ := by
  let start := (s.enter .parameterList).openNode .paramList 4
  obtain ⟨d', t, ht, hp, hd⟩ := someParameters_complete (s := start.2) start.1 hroom hf h hx
  refine ⟨d'.close, { t with depth := t.depth - 1 }, ?_, hp, hd.shape_close⟩
  apply tryRule_of_matched (hroom.mono (by omega))
  refine (bind_of_matched rfl).trans ?_
  exact bind_of_matched ht

/-- What is read before the parts of a function that tell a declaration and a definition apart. -/
theorem signature_sound {parts : List Node} (hf : s.interner.Faithful)
    (h : signature limit s = ⟨.matched parts, t⟩) :
    ∃ g : Signature, WrittenUpTo g.print s.pending t.pending ∧
      parts.map Node.shape = g.shapes ∧ parts.flatMap Node.lines = g.firsts.map s.lineOf := by
  obtain ⟨ty, s₁, h₁, k₁⟩ := bind_eq_matched h
  obtain ⟨name, s₂, h₂, k₂⟩ := bind_eq_matched k₁
  obtain ⟨_, s₃, h₃, k₃⟩ := bind_eq_matched k₂
  obtain ⟨list, s₄, h₄, k₄⟩ := bind_eq_matched k₃
  obtain ⟨_, s₅, h₅, k₅⟩ := bind_eq_matched k₄
  obtain ⟨rfl, rfl⟩ := pure_eq_matched k₅
  have hk := ((keeps_typeName limit).of_eq h₁).trans <|
    (keeps_identifier.of_eq h₂).trans ((keeps_expect (by simp)).of_eq h₃)
  obtain ⟨v, hv, hs, hl⟩ := variable_sound hf h₁ h₂
  obtain ⟨vs, hvs, hn, hln⟩ := parameterList_sound (hk.faithful hf) h₄
  have hopen := expect_sound (by simp) h₃
  have hclose := expect_sound (by simp) h₅
  refine ⟨⟨v, vs⟩, hv.trans (hopen.trans (hvs.trans hclose)), ?_, ?_⟩
  · rw [Signature.shapes, ← hs, ← hn]
    rfl
  · have hlist : list.lines = (behind (v.print.length + 1) (0 :: Variable.allFirsts vs)).map
        s.lineOf := by
      rw [hln, hk.map_lineOf (hv.trans hopen), List.length_append]
      rfl
    rw [Signature.firsts, List.map_append, ← hl, ← hlist]
    simp

theorem signature_complete {g : Signature} {rest : List Token} (hroom : Room limit (s.depth + 2))
    (hf : s.interner.Faithful) (h : WrittenUpTo g.print s.pending rest) :
    ∃ parts t, signature limit s = ⟨.matched parts, t⟩ ∧ t.pending = rest ∧
      parts.map Node.shape = g.shapes := by
  obtain ⟨m, hv, hm⟩ := h.split
  obtain ⟨m₁, hopen, hm₁⟩ := WrittenUpTo.split (p := [.mark .lParen]) hm
  obtain ⟨m₂, hvs, hclose⟩ := hm₁.split
  obtain ⟨x, m₃, rfl, hx, -⟩ := hclose.uncons
  obtain ⟨ty, s₁, name, s₂, h₁, h₂, rfl, hs⟩ := variable_complete (hroom.mono (by omega)) hf hv
  obtain ⟨h₃, rfl⟩ := expect_complete hopen
  have hk := ((keeps_typeName limit).of_eq h₁).trans <|
    (keeps_identifier.of_eq h₂).trans ((keeps_expect (by simp)).of_eq h₃)
  obtain ⟨list, s₄, h₄, hp₄, hn⟩ :=
    parameterList_complete (by rwa [hk.depth]) (hk.faithful hf) hvs hx
  obtain ⟨h₅, hp₅⟩ := expect_complete (hp₄ ▸ hclose)
  refine ⟨[ty, name, list], s₄.skip, ?_, hp₅, ?_⟩
  · refine (bind_of_matched h₁).trans ?_
    refine (bind_of_matched h₂).trans ?_
    refine (bind_of_matched h₃).trans ?_
    refine (bind_of_matched h₄).trans ?_
    exact bind_of_matched h₅
  · rw [Signature.shapes, ← hs, ← hn]
    rfl

theorem functionDeclaration_sound (hf : s.interner.Faithful)
    (h : functionDeclaration limit s = ⟨.matched n, t⟩) :
    ∃ g, WrittenUpTo (Item.prototype g).print s.pending t.pending ∧
      n.shape = (Item.prototype g).shape ∧
      n.lines = (Item.prototype g).firsts.map s.lineOf := by
  obtain ⟨u, k, hu⟩ := tryRule_eq_matched h
  obtain ⟨line, s₁, h₁, k₁⟩ := bind_eq_matched k
  obtain ⟨parts, s₂, h₂, k₂⟩ := bind_eq_matched k₁
  obtain ⟨_, s₃, h₃, k₃⟩ := bind_eq_matched k₂
  obtain ⟨rfl, rfl⟩ := step_eq_matched h₁
  have hf₁ : (s.enter .functionDeclaration).interner.Faithful := hf
  obtain ⟨g, hg, hs, hl⟩ := signature_sound hf₁ h₂
  obtain ⟨hp, hn, hln⟩ := nodeOf_sound k₃
  have hsemi := expect_sound (by simp) h₃
  rw [← hp, ← hu] at hsemi
  refine ⟨g, hg.trans hsemi, by rw [hn, hs, Item.shape], ?_⟩
  rw [hln, hl, Item.firsts, List.map_cons, State.lineOf_zero]
  rfl

theorem functionDeclaration_complete {g : Signature} {rest : List Token}
    (hroom : Room limit (s.depth + 3)) (hf : s.interner.Faithful)
    (h : WrittenUpTo (Item.prototype g).print s.pending rest) :
    ∃ n t, functionDeclaration limit s = ⟨.matched n, t⟩ ∧ t.pending = rest ∧
      n.shape = (Item.prototype g).shape := by
  let s₀ := s.enter .functionDeclaration
  obtain ⟨m, hg, hsemi⟩ := h.split
  obtain ⟨parts, s₁, h₁, rfl, hs⟩ := signature_complete (s := s₀) hroom hf hg
  obtain ⟨h₂, hp₂⟩ := expect_complete hsemi
  obtain ⟨n, s₃, h₃, hp₃, hn, -⟩ := nodeOf_spec .funcDecl s₀.nextLine parts s₁.skip
  refine ⟨n, { s₃ with depth := s₃.depth - 1 }, ?_, hp₃.trans hp₂, by rw [hn, hs, Item.shape]⟩
  apply tryRule_of_matched (hroom.mono (by omega))
  refine (bind_of_matched rfl).trans ?_
  refine (bind_of_matched h₁).trans ?_
  exact (bind_of_matched h₂).trans h₃

end Parser

end MiniC
