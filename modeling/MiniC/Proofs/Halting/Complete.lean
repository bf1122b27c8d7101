import MiniC.Proofs.Halting.Sound

namespace MiniC

open Syntax Grammar

namespace Parser

variable {α β : Type} {limit : Option Nat} {s t : State} {halt : Halt} {rest : List Token}

/-- The parser gives up for this reason, right before the tokens `rest`. -/
def GivesUp (p : Parser α) (s : State) (halt : Halt) (rest : List Token) : Prop :=
  ∃ e t, p s = ⟨.fatal e, t⟩ ∧ halt.Reported e t ∧ t.pending = rest

namespace GivesUp

variable {p : Parser α}

theorem bind (h : p.GivesUp s halt rest) (f : α → Parser β) : (p >>= f).GivesUp s halt rest := by
  obtain ⟨e, t, ht, hrep, hp⟩ := h
  exact ⟨e, t, bind_of_fatal ht, hrep, hp⟩

theorem of_eq {q : Parser α} (hp : p s = q t) (h : q.GivesUp t halt rest) :
    p.GivesUp s halt rest := by
  obtain ⟨e, u, hu, hrep, hpu⟩ := h
  exact ⟨e, u, hp.trans hu, hrep, hpu⟩

theorem of_matched {f : α → Parser β} {a : α} (hp : p s = ⟨.matched a, t⟩)
    (h : (f a).GivesUp t halt rest) : (p >>= f).GivesUp s halt rest :=
  of_eq (bind_of_matched hp) h

theorem orElse (h : p.GivesUp s halt rest) (q : Parser α) :
    (p.orElse q).GivesUp s halt rest := by
  obtain ⟨e, t, ht, hrep, hp⟩ := h
  exact ⟨e, t, orElse_of_fatal ht, hrep, hp⟩

theorem of_mismatch {q : Parser α} (hp : p s = ⟨.mismatch, t⟩) (h : q.GivesUp t halt rest) :
    (p.orElse q).GivesUp s halt rest :=
  of_eq (orElse_of_mismatch hp) h

theorem of_full (h : ¬Room limit (s.depth + 1)) (rule : Rule) (p : Parser α) :
    (Parser.tryRule limit rule p).GivesUp s (.tooDeep rule) s.pending :=
  ⟨_, _, tryRule_of_full h, reported_refuse s rule, rfl⟩

theorem tryRule {rule : Rule} (hroom : Room limit (s.depth + 1))
    (h : p.GivesUp (s.enter rule) halt rest) :
    (Parser.tryRule limit rule p).GivesUp s halt rest := by
  obtain ⟨e, t, ht, hrep, hp⟩ := h
  exact ⟨e, _, tryRule_of_fatal hroom ht, ⟨hrep.error, hrep.event⟩, hp⟩

theorem collect {kind : NodeKind} {wanted : Nat} {p : Draft → Parser Draft}
    (h : (p (s.openNode kind wanted).1).GivesUp (s.openNode kind wanted).2 halt rest) :
    (do let d ← openNode kind wanted
        let d ← p d
        return d.close : Parser Node).GivesUp s halt rest :=
  of_matched rfl (h.bind _)

end GivesUp

/-- What goes on behind operands with another parenthesis is no cast. -/
theorem cast_mismatch_of_overrun {before : Expression} {p : List Sign} (hcan : before.Canonical)
    (hroom : Room limit (s.depth + 2)) (hf : s.interner.Faithful)
    (h : WrittenUpTo (before.print ++ .mark .lParen :: p) s.pending rest) :
    ∃ t, cast limit s = ⟨.mismatch, t⟩ := by
  refine (mild_cast limit).exists_mismatch hroom fun n t hn => ?_
  obtain ⟨ty, hty, -⟩ := cast_sound hf hn
  have hops : ∀ l ∈ ty.leaves, IsOperand l.kind := fun l hl =>
    isOperand_of_isTypePart (ty.isType.isTypePart_of_mem (List.mem_map_of_mem hl))
  have hclose := firstBreak_of_leaves hops (by decide) hty
  rw [hcan.firstBreak_eq p h] at hclose
  simp at hclose

theorem operands_of_inner {before : Expression} {p : List Sign} (hcan : before.Canonical)
    (hfit : before.Fits limit s.depth) (hf : s.interner.Faithful)
    (h : WrittenUpTo (before.print ++ .mark .lParen :: p) s.pending rest)
    (hinner : ∀ u : State, s.Kept u → WrittenUpTo p u.pending rest →
      ((cast limit).orElse (group limit)).GivesUp u halt rest) (d : Draft) :
    (operands limit d).GivesUp s halt rest := by
  obtain ⟨m, hbefore, hp⟩ := h.split
  obtain ⟨x, m', rfl, hx, hm⟩ := hp.uncons
  obtain ⟨d', t, ht, hk, hpt, -⟩ := operands_complete hcan hfit hf hbefore d
  have hgroup : t.nextKind.expressionPart = .group :=
    TokenKind.group_iff.mpr ((State.nextKind_of_pending hpt).trans hx)
  have hskip : s.Kept t.skip := hk.trans (State.kept_skip (State.nextKind_ne_eof hpt))
  have hu := hinner t.skip hskip (by rwa [State.pending_skip hpt])
  refine .of_eq ?_ ((hu.bind fun inner => append d' inner).bind (operands limit))
  rw [ht, operands_eq, hgroup]

theorem expression_of_inner {before : Expression} {p : List Sign}
    (hroom : Room limit (s.depth + 1)) (hcan : before.Canonical)
    (hfit : before.Fits limit (s.depth + 1)) (hf : s.interner.Faithful)
    (h : WrittenUpTo (before.print ++ .mark .lParen :: p) s.pending rest)
    (hinner : ∀ u : State, u.depth = s.depth + 1 → u.interner.Faithful →
      WrittenUpTo p u.pending rest → ((cast limit).orElse (group limit)).GivesUp u halt rest) :
    (expression limit).GivesUp s halt rest := by
  rw [expression_eq]
  refine .tryRule hroom (.collect ?_)
  exact operands_of_inner (s := ((s.enter .expression).openNode .expression 4).2) hcan hfit hf h
    (fun u hk hw => hinner u hk.depth (hk.faithful hf) hw) _

theorem inner_of_overruns {depth : Nat} {p : List Sign} {rule : Rule}
    (h : Expression.Overruns limit depth p rule) :
    ∀ {s : State}, s.depth = depth → s.interner.Faithful → WrittenUpTo p s.pending rest →
      ((cast limit).orElse (group limit)).GivesUp s (.tooDeep rule) rest := by
  induction h with
  | cast hr =>
    rintro s rfl hf hw
    rw [← hw.eq_of_nil]
    exact (GivesUp.of_full hr _ _).orElse _
  | type hroom hr =>
    rintro s rfl hf hw
    rw [← hw.eq_of_nil]
    have hty : (typeName limit).GivesUp (s.enter .cast) (.tooDeep .type) s.pending :=
      .of_full hr _ _
    exact ((hty.bind _).tryRule hroom).orElse _
  | group hroom hcan hfit _ ih =>
    rintro s rfl hf hw
    obtain ⟨u, hu⟩ := cast_mismatch_of_overrun hcan hroom hf hw
    have hk := (keeps_cast limit).of_eq hu
    rw [← (cast_eq_mismatch hu).2] at hw
    rw [← hk.depth] at hroom hfit
    refine .of_mismatch hu (GivesUp.bind ?_ _)
    exact expression_of_inner (hroom.mono (by omega)) hcan hfit (hk.faithful hf) hw
      fun v hv hfv hwv => ih (by rw [hv, hk.depth]) hfv hwv

theorem expression_of_halts {p : List Sign} {rule : Rule} (hf : s.interner.Faithful)
    (h : Expression.Halts limit s.depth p rule) (hw : WrittenUpTo p s.pending rest) :
    (expression limit).GivesUp s (.tooDeep rule) rest := by
  cases h with
  | refused hr =>
    rw [← hw.eq_of_nil, expression_eq]
    exact .of_full hr _ _
  | overrun hroom hcan hfit hover =>
    exact expression_of_inner hroom hcan hfit hf hw fun u hd hfu hwu =>
      inner_of_overruns hover hd hfu hwu

theorem statement_of_partsHalt (hroom : Room limit (s.depth + 1))
    (h : (statementParts limit (.empty .statement s.nextLine 2)).GivesUp
      ((s.enter .statement).openNode .statement 2).2 halt rest) :
    (statement limit).GivesUp s halt rest := by
  rw [statement_eq]
  exact .tryRule hroom (.collect h)

theorem statement_of_simpleHalt (hroom : Room limit (s.depth + 1)) (hne : s.nextKind ≠ .lBrace)
    (h : (simpleStatement limit (.empty .statement s.nextLine 2)).GivesUp
      ((s.enter .statement).openNode .statement 2).2 halt rest) :
    (statement limit).GivesUp s halt rest := by
  exact statement_of_partsHalt hroom (.of_eq (statementParts_of_ne _ hne) h)

theorem simpleStatement_of_ret {text? : Option String} {p : List Sign} {rule : Rule} (d : Draft)
    (hf : s.interner.Faithful) (h : Expression.Halts limit s.depth p rule)
    (hw : WrittenUpTo (.leaf ⟨.kwReturn, text?⟩ :: p) s.pending rest) :
    (simpleStatement limit d).GivesUp s (.tooDeep rule) rest := by
  obtain ⟨x, m, hx, hl, hm⟩ := hw.uncons
  have hn : s.nextKind = .kwReturn := (State.nextKind_of_pending hx).trans hl.kind_eq
  have hk := State.kept_addLeaf d (State.nextKind_ne_eof hx)
  rw [← hk.depth] at h
  rw [← State.pending_addLeaf d hx] at hm
  have hvalue := expression_of_halts (hk.faithful hf) h hm
  refine .of_eq (simpleStatement_of_plain d (by rw [hn]; rfl)) ?_
  exact .of_matched (returnLeaf_of_return d hn) (hvalue.bind _)

theorem statement_of_halts {depth : Nat} {k : TokenKind} {p : List Sign}
    (h : Statement.Halts limit k depth p halt) :
    ∀ {s : State}, s.depth = depth → s.interner.Faithful → WrittenUpTo p s.pending rest →
      firstKind rest = k → (statement limit).GivesUp s halt rest := by
  induction h with
  | refused hr =>
    rintro s rfl hf hw -
    rw [← hw.eq_of_nil, statement_eq]
    exact .of_full hr _ _
  | @keyword depth c hroom hc =>
    rintro s rfl hf hw rfl
    rw [← hw.eq_of_nil, ← State.nextKind_eq_firstKind] at hc
    rw [← hw.eq_of_nil]
    have hne : s.nextKind ≠ .lBrace := by
      intro hb
      rw [hb] at hc
      simp [Construct.ofStatement?] at hc
    let s₀ := ((s.enter .statement).openNode .statement 2).2
    have hrefuse : simpleStatement limit (.empty .statement s.nextLine 2) s₀ =
        refuseConstruct c s₀ := by
      unfold simpleStatement
      rw [show Construct.ofStatement? s₀.nextKind = some c from hc]
    exact statement_of_simpleHalt hroom hne ⟨_, _, hrefuse, ⟨rfl, rfl⟩, rfl⟩
  | @compound depth body p halt hroom hcan hfits _ hlead ih =>
    rintro s rfl hf hw rfl
    let s₀ := ((s.enter .statement).openNode .statement 2).2
    obtain ⟨x, m, hx, hb, hm⟩ := WrittenUpTo.uncons hw
    have hn : s₀.nextKind = .lBrace := (State.nextKind_of_pending (s := s₀) hx).trans hb
    rw [← State.pending_skip (s := s₀) hx] at hm
    obtain ⟨m', hbody, hp⟩ := hm.split
    -- the statements before the one that is given up are read
    obtain ⟨d', t, ht, hk, rfl, -⟩ := compound_read hcan (s := s₀.skip)
      (.empty .statement s.nextLine 2) (fun st hs => statement_read (hcan st hs) (hfits st hs)) hf
      hbody
    have hend : t.nextKind ≠ .rBrace := by
      rwa [State.nextKind_eq_leadKind hp]
    have hst : (statement limit).GivesUp t halt rest := ih hk.depth (hk.faithful hf) hp rfl
    refine statement_of_partsHalt hroom (.of_eq ?_
      ((hst.bind fun inner => append d' inner).bind (compound limit)))
    rw [statementParts, if_pos hn]
    refine ht.trans ?_
    rw [compound_eq, if_neg hend]
  | ret hroom he =>
    rintro s rfl hf hw -
    let s₀ := ((s.enter .statement).openNode .statement 2).2
    have hne : s.nextKind ≠ .lBrace := by
      obtain ⟨x, m, hx, hl, -⟩ := hw.uncons
      simp [State.nextKind_of_pending hx, hl.kind_eq, Sign.kind]
    exact statement_of_simpleHalt hroom hne (simpleStatement_of_ret (s := s₀) _ hf he hw)
  | expression hroom he hbrace hreturn hplain =>
    rintro s rfl hf hw rfl
    rw [← State.nextKind_eq_leadKind hw] at hbrace hreturn hplain
    let s₀ := ((s.enter .statement).openNode .statement 2).2
    have hvalue := expression_of_halts (s := s₀) hf he hw
    refine statement_of_simpleHalt hroom hbrace (.of_eq (simpleStatement_of_plain _ hplain) ?_)
    exact .of_matched (returnLeaf_of_ne _ hreturn) (hvalue.bind _)

theorem bodyItem_of_halts {p : List Sign} (hroom : Room limit (s.depth + 2))
    (hf : s.interner.Faithful) (h : Statement.Halts limit (firstKind rest) s.depth p halt)
    (hw : WrittenUpTo p s.pending rest) : (bodyItem limit).GivesUp s halt rest := by
  obtain ⟨u, hu, hk, hp⟩ := variableDefinition_mismatch hroom hf fun v r =>
    h.not_definition hroom hw v
  rw [← hk.depth] at h
  exact .of_mismatch hu (statement_of_halts h rfl (hk.faithful hf) (by rwa [hp]) rfl)

theorem functionBody_of_halts {body : List Local} {p : List Sign}
    (hroom : Room limit (s.depth + 3)) (hf : s.interner.Faithful) (hcan : ∀ x ∈ body, x.Canonical)
    (hfits : ∀ x ∈ body, x.Fits limit (s.depth + 1))
    (h : Statement.Halts limit (firstKind rest) (s.depth + 1) p halt)
    (hlead : leadKind p (firstKind rest) ≠ .rBrace)
    (hw : WrittenUpTo (body.flatMap Local.print ++ p) s.pending rest) :
    (functionBody limit).GivesUp s halt rest := by
  let s₀ := ((s.enter .functionBody).openNode .statementList 4).2
  refine .tryRule (hroom.mono (by omega)) (.collect ?_)
  obtain ⟨m, hbody, hp⟩ := hw.split
  obtain ⟨d', t, ht, hk, rfl, -⟩ := bodyItems_read (s := s₀)
    (.empty .statementList s.nextLine 4) hcan hroom hfits hf hbody
  have hend : t.nextKind ≠ .rBrace := by
    rwa [State.nextKind_eq_leadKind hp]
  have hd : t.depth = s.depth + 1 := hk.depth
  have hitem : (bodyItem limit).GivesUp t halt rest :=
    bodyItem_of_halts (hroom.mono (by omega)) (hk.faithful hf) (by rwa [hd]) hp
  refine .of_eq (ht.trans ?_) ((hitem.bind fun item => append d' item).bind (bodyItems limit))
  rw [bodyItems_eq, if_neg hend]

theorem functionDefinition_of_halts {g : Signature} {body : List Local} {p : List Sign}
    (hroom : Room limit (s.depth + 4)) (hf : s.interner.Faithful) (hcan : ∀ x ∈ body, x.Canonical)
    (hfits : ∀ x ∈ body, x.Fits limit (s.depth + 2))
    (h : Statement.Halts limit (firstKind rest) (s.depth + 2) p halt)
    (hlead : leadKind p (firstKind rest) ≠ .rBrace)
    (hw : WrittenUpTo (g.print ++ .mark .lBrace :: (body.flatMap Local.print ++ p)) s.pending
      rest) :
    (functionDefinition limit).GivesUp s halt rest := by
  let s₀ := s.enter .functionDefinition
  obtain ⟨m, hg, hm⟩ := hw.split
  obtain ⟨m₁, hopen, hbody⟩ := WrittenUpTo.split (p := [.mark .lBrace]) hm
  obtain ⟨parts, s₁, h₁, rfl, -⟩ :=
    signature_complete (s := s₀) (hroom.mono (by simp only [s₀, State.enter]; omega)) hf hg
  obtain ⟨h₂, rfl⟩ := expect_complete hopen
  have hk := ((keeps_signature limit).of_eq h₁).trans ((keeps_expect (by simp)).of_eq h₂)
  have hd : s₁.skip.depth = s.depth + 1 := hk.depth
  have hbody := functionBody_of_halts (s := s₁.skip) (by rwa [hd]) (hk.faithful hf) hcan
    (by rwa [hd]) (by rwa [hd]) hlead hbody
  refine .tryRule (hroom.mono (by omega)) ?_
  exact .of_matched rfl (.of_matched h₁ (.of_matched h₂ (hbody.bind _)))

theorem topLevel_of_halts {p : List Sign} (hroom : Room limit (s.depth + 4))
    (hf : s.interner.Faithful) (h : Item.Halts limit (firstKind rest) s.depth p halt)
    (hw : WrittenUpTo p s.pending rest) : (topLevel limit).GivesUp s halt rest := by
  cases h with
  | @declaration c hc =>
    rw [← hw.eq_of_nil] at hc ⊢
    rw [← State.nextKind_eq_firstKind] at hc
    obtain ⟨e, t, he⟩ := topLevel_fatal_of_refused hf hc
    obtain ⟨p', halt', hhalt, hw', hrep⟩ := topLevel_halts hf hroom he
    -- it is given up right here, since what is given up later begins with a part of a type
    rcases hhalt.first with ⟨rfl, c', rfl, hc'⟩ | hpart
    · rw [State.nextKind_eq_of_pending hw'.eq_of_nil.symm, hc] at hc'
      obtain rfl := Option.some.inj hc'
      exact ⟨e, t, he, hrep, hw'.eq_of_nil.symm⟩
    · rw [State.nextKind_eq_firstKind t, ← State.nextKind_eq_leadKind hw'] at hpart
      rw [ofDeclaration?_of_isTypePart hpart] at hc
      simp at hc
  | @body g body p _ hcan hfits hhalt hlead =>
    obtain ⟨u, hu, hk, hp⟩ := topLevel_of_body g.isSignature_kinds (hroom.mono (by omega)) hf
      (r := (body.flatMap Local.print ++ p).map Sign.kind ++ rest.map Token.kind)
      (by simpa [Sign.kind] using State.kinds_of_written hw)
    rw [← hk.depth] at hroom hfits hhalt
    obtain ⟨e, t, ht, hrep, hpt⟩ := functionDefinition_of_halts (s := u) hroom (hk.faithful hf)
      hcan hfits hhalt hlead (by rwa [hp])
    exact ⟨e, t, hu.trans (orElse_of_fatal ht), hrep, hpt⟩

theorem translationUnit_of_halts {p : List Sign} (hroom : Room limit (s.depth + 4))
    (hf : s.interner.Faithful) (h : TranslationUnit.Halts limit (firstKind rest) s.depth p halt)
    (hw : WrittenUpTo p s.pending rest) : (translationUnit limit).GivesUp s halt rest := by
  obtain ⟨hcan, hfits, hitem⟩ := h
  obtain ⟨m, hu, hp⟩ := hw.split
  obtain ⟨d', t, ht, hk, rfl, -⟩ := unitItems_read hcan (s := (s.openNode .translationUnit 4).2)
    (.empty .translationUnit s.nextLine 4) hroom hfits hf hu
  have hd : t.depth = s.depth := hk.depth
  have hne : t.nextKind ≠ .eof := by
    rw [State.nextKind_eq_leadKind hp]
    rcases hitem.first with ⟨rfl, c, -, hc⟩ | hpart
    · intro he
      rw [show firstKind rest = .eof from he] at hc
      simp [Construct.ofDeclaration?] at hc
    · intro he
      rw [he] at hpart
      exact absurd hpart (by decide)
  obtain ⟨e, v, hv, hrep, hpv⟩ :=
    topLevel_of_halts (s := t) (by rwa [hd]) (hk.faithful hf) (by rwa [hd]) hp
  have hitems : GivesUp (unitItems limit (.empty .translationUnit s.nextLine 4))
      (s.openNode .translationUnit 4).2 halt rest :=
    ⟨e, v, ht.trans (unitItems_of_fatal d' hne hv), hrep, hpv⟩
  exact .of_matched rfl (hitems.bind _)

end Parser

namespace Syntax

/-- `int f() {` on one line, and on the next `return` and so many opening parentheses. -/
def openTokens (k : Nat) : List Token :=
  [.plain .kwInt, .ident "f", .plain .lParen, .plain .rParen, .plain .lBrace, .newline,
    .plain .kwReturn] ++ List.replicate k (.plain .lParen)

def openText (k : Nat) : List Sign :=
  [.leaf ⟨.kwInt, none⟩, .leaf ⟨.ident, some "f"⟩, .mark .lParen, .mark .rParen, .mark .lBrace,
    .leaf ⟨.kwReturn, none⟩] ++ List.replicate k (.mark .lParen)

theorem openTokens_ne_eof (k : Nat) : ∀ x ∈ openTokens k, x.kind ≠ .eof := by
  simp [openTokens, Token.plain, Token.ident, Token.newline]

theorem written_openText (k : Nat) :
    Written (openText k) ((openTokens k).filter (·.isSignificant)) := by
  have hparens :
      Written (List.replicate k (.mark .lParen)) (List.replicate k (.plain .lParen)) := by
    induction k with
    | zero => exact .nil
    | succ k ih => exact .cons rfl ih
  have hall : (List.replicate k (Token.plain .lParen)).filter (·.isSignificant) =
      List.replicate k (.plain .lParen) := List.filter_replicate_of_pos rfl
  rw [openTokens, List.filter_append, hall]
  refine Written.append ?_ hparens
  repeat' constructor

theorem Expression.overruns_replicate {depth n : Nat} (h : depth + n = 255) :
    Overruns (some nestingLimit) depth (List.replicate n (.mark .lParen)) .type := by
  induction n generalizing depth with
  | zero =>
    obtain rfl : depth = 255 := h
    exact .type (room_nestingLimit_iff.mpr (by omega)) (by rw [room_nestingLimit_iff]; omega)
  | succ n ih =>
    have hroom : Room (some nestingLimit) (depth + 2) := room_nestingLimit_iff.mpr (by omega)
    have hgroup : Overruns (some nestingLimit) depth
        (nil.print ++ .mark .lParen :: List.replicate n (.mark .lParen)) .type :=
      .group hroom trivial trivial (ih (by omega))
    exact hgroup

/-- One pair of parentheses more than there is room for. -/
theorem halts_openText (k : TokenKind) :
    TranslationUnit.Halts (some nestingLimit) k 0 (openText 252) (.tooDeep .type) := by
  have hvalue : Expression.Halts (some nestingLimit) 3
      (Expression.nil.print ++ .mark .lParen :: List.replicate 251 (.mark .lParen)) .type :=
    .overrun (room_nestingLimit_iff.mpr (by omega)) trivial trivial
      (Expression.overruns_replicate rfl)
  have hret : Statement.Halts (some nestingLimit) k 2
      (.leaf ⟨.kwReturn, none⟩ :: List.replicate 252 (.mark .lParen)) (.tooDeep .type) :=
    .ret (room_nestingLimit_iff.mpr (by omega)) hvalue
  have hitem : Item.Halts (some nestingLimit) k 0
      (Signature.print ⟨⟨intType, some "f"⟩, []⟩ ++ .mark .lBrace :: (List.flatMap Local.print [] ++
        .leaf ⟨.kwReturn, none⟩ :: List.replicate 252 (.mark .lParen))) (.tooDeep .type) :=
    .body (by simp) (by simp) hret (show TokenKind.kwReturn ≠ .rBrace by decide)
  exact .intro (u := []) (by simp [TranslationUnit.Canonical]) (by simp) hitem

/-- Behind `int f() {` an `if` is refused. -/
theorem halts_if :
    Item.Halts (some nestingLimit) .kwIf 0 [.leaf ⟨.kwInt, none⟩, .leaf ⟨.ident, some "f"⟩,
      .mark .lParen, .mark .rParen, .mark .lBrace] (.refused .ifStatement) := by
  have hbody : Item.Halts (some nestingLimit) .kwIf 0
      (Signature.print ⟨⟨intType, some "f"⟩, []⟩ ++
        .mark .lBrace :: (List.flatMap Local.print [] ++ [])) (.refused .ifStatement) :=
    .body (by simp) (by simp) (.keyword (room_nestingLimit.mono (by decide)) rfl) (by decide)
  exact hbody

end Syntax

theorem translationUnit_openTokens (arena : Arena) :
    ∃ t, Parser.translationUnit (some nestingLimit)
        ⟨Reader.ofTokens (openTokens 252) .start, 0, arena, .empty, []⟩ =
      ⟨.fatal (.nestingTooDeep 2), t⟩ ∧ t.pending = [] := by
  let s : State := ⟨Reader.ofTokens (openTokens 252) .start, 0, arena, .empty, []⟩
  have hw : WrittenUpTo (openText 252) s.pending [] := by
    refine ⟨_, written_openText 252, ?_⟩
    rw [List.append_nil]
    exact programTokens_of_noEof (openTokens_ne_eof 252)
  obtain ⟨e, t, ht, ⟨rfl, -⟩, hp⟩ := Parser.translationUnit_of_halts (s := s) room_nestingLimit
    Interner.faithful_empty (halts_openText _) hw
  have hk := (Parser.keeps_translationUnit (some nestingLimit)).of_eq ht
  have hline : t.nextLine = 2 := by
    rw [← hp] at hw
    rw [← State.lineOf_zero, hk.lineOf hw]
    have hall : (openTokens 252).countP (·.isSignificant) ≤ (openText 252).length + 0 := by
      rw [(written_openText 252).length_eq, List.countP_eq_length_filter]
      exact Nat.le_refl _
    have hone : (openTokens 252).countP (!·.isSignificant) = 1 := by
      rw [openTokens, List.countP_append, List.countP_replicate]
      rfl
    show 1 + newlinesBefore (openTokens 252) _ = 2
    rw [newlinesBefore_all hall, hone]
  exact ⟨t, by rw [ht, hline]; rfl, hp⟩

end MiniC
