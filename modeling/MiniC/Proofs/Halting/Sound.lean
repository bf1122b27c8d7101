import MiniC.Proofs.Halting.Text

namespace MiniC

open Syntax Grammar

namespace Parser

variable {α : Type} {limit : Option Nat} {rule : Rule} {s t : State} {d : Draft} {e : ParseError}

theorem reported_refuse (s : State) (rule : Rule) :
    (Halt.tooDeep rule).Reported (.nestingTooDeep s.nextLine)
      (s.record (.limitReached rule s.nextLine)) := ⟨rfl, rfl⟩

theorem tryRule_halts {p : Parser α} (h : tryRule limit rule p s = ⟨.fatal e, t⟩) :
    (¬Room limit (s.depth + 1) ∧ (Halt.tooDeep rule).Reported e t ∧ t.pending = s.pending) ∨
      Room limit (s.depth + 1) ∧
        ∃ u, p (s.enter rule) = ⟨.fatal e, u⟩ ∧ t = { u with depth := u.depth - 1 } := by
  by_cases hr : Room limit (s.depth + 1)
  · exact .inr ⟨hr, tryRule_eq_fatal hr h⟩
  · rw [tryRule_of_full hr] at h
    obtain ⟨rfl, rfl⟩ := Result.fatal_inj h
    exact .inl ⟨hr, reported_refuse s rule, rfl⟩

theorem collect_halts {kind : NodeKind} {wanted : Nat} {p : Draft → Parser Draft} {u : State}
    (h : (do let d ← openNode kind wanted
             let d ← p d
             return d.close : Parser Node) s = ⟨.fatal e, u⟩) :
    p (s.openNode kind wanted).1 (s.openNode kind wanted).2 = ⟨.fatal e, u⟩ := by
  rcases bind_eq_fatal h with h | ⟨d, s₁, h₁, h⟩
  · simp [openNode, step] at h
  obtain ⟨rfl, rfl⟩ := step_eq_matched h₁
  rcases bind_eq_fatal h with h | ⟨d', s₂, -, h⟩
  · exact h
  · simp [pure_apply] at h

/-- A cast is given up only before it reads anything. -/
theorem cast_halts (h : cast limit s = ⟨.fatal e, t⟩) :
    ∃ rule, Expression.Overruns limit s.depth [] rule ∧ t.pending = s.pending ∧
      (Halt.tooDeep rule).Reported e t := by
  have hfull : ¬Room limit (s.depth + 2) := fun hr => mild_cast limit s hr e t h
  rcases tryRule_halts h with ⟨hr, hrep, hp⟩ | ⟨hr, u, hu, rfl⟩
  · exact ⟨.cast, .cast hr, hp, hrep⟩
  rcases bind_eq_fatal hu with hu | ⟨ty, s₁, h₁, -⟩
  · rcases tryRule_halts hu with ⟨hr', hrep, hp⟩ | ⟨hr', -⟩
    · exact ⟨.type, .type hr hfull, hp, ⟨hrep.error, hrep.event⟩⟩
    · exact absurd hr' hfull
  · exact absurd (room_of_matched h₁) hfull

/-- From `s` on, operands are given up between parentheses only. -/
def OperandsHalt (limit : Option Nat) (s : State) : Prop :=
  ∀ (d : Draft) (e : ParseError) (t : State), operands limit d s = ⟨.fatal e, t⟩ →
    ∃ (before : Expression) (p : List Sign) (rule : Rule), before.Canonical ∧
      before.Fits limit s.depth ∧ Expression.Overruns limit s.depth p rule ∧
      WrittenUpTo (before.print ++ .mark .lParen :: p) s.pending t.pending ∧
      (Halt.tooDeep rule).Reported e t

theorem expression_halts_of (hf : s.interner.Faithful)
    (hoperands : ∀ t : State, t.left ≤ s.left → t.interner.Faithful → OperandsHalt limit t)
    (h : expression limit s = ⟨.fatal e, t⟩) :
    ∃ p rule, Expression.Halts limit s.depth p rule ∧ WrittenUpTo p s.pending t.pending ∧
      (Halt.tooDeep rule).Reported e t := by
  rw [expression_eq] at h
  rcases tryRule_halts h with ⟨hr, hrep, hp⟩ | ⟨hr, u, hu, rfl⟩
  · rw [← hp]
    exact ⟨[], _, .refused hr, .nil _, hrep⟩
  · obtain ⟨before, p, rule, hcan, hfit, hover, hw, hrep⟩ :=
      hoperands ((s.enter .expression).openNode .expression 4).2 (Nat.le_refl _) hf _ _ _
        (collect_halts hu)
    exact ⟨_, rule, .overrun hr hcan hfit hover, hw, hrep.error, hrep.event⟩

/-- What is between parentheses is given up for want of room. -/
theorem inner_halts (hf : s.interner.Faithful)
    (hoperands : ∀ t : State, t.left ≤ s.left → t.interner.Faithful → OperandsHalt limit t)
    (h : (cast limit).orElse (group limit) s = ⟨.fatal e, t⟩) :
    ∃ p rule, Expression.Overruns limit s.depth p rule ∧ WrittenUpTo p s.pending t.pending ∧
      (Halt.tooDeep rule).Reported e t := by
  rcases orElse_eq_fatal h with h | ⟨u, hu, h⟩
  · obtain ⟨rule, hover, hp, hrep⟩ := cast_halts h
    rw [← hp]
    exact ⟨[], rule, hover, .nil _, hrep⟩
  obtain ⟨hroom, hup⟩ := cast_eq_mismatch hu
  have hk := (keeps_cast limit).of_eq hu
  rcases bind_eq_fatal h with h | ⟨inner, s₁, -, h⟩
  · obtain ⟨p, rule, hhalt, hw, hrep⟩ := expression_halts_of (hk.faithful hf)
      (fun v hv => hoperands v (Nat.le_trans hv hk.left_le)) h
    rw [hk.depth] at hhalt
    rw [hup] at hw
    refine ⟨p, rule, ?_, hw, hrep⟩
    cases hhalt with
    | refused hr => exact absurd (hroom.mono (by omega)) hr
    | overrun _ hcan hfit hover => exact .group hroom hcan hfit hover
  · rcases bind_eq_fatal h with h | ⟨_, s₂, -, h⟩
    · exact absurd h expect_ne_fatal
    · simp [pure_apply] at h

theorem operands_halt (limit : Option Nat) (s : State) (hf : s.interner.Faithful) :
    OperandsHalt limit s := by
  induction hn : s.left using Nat.strongRecOn generalizing s with
  | ind n ih =>
    subst hn
    have ih (t : State) (ht : t.left < s.left) (hf : t.interner.Faithful) := ih t.left ht t hf rfl
    intro d e t h
    rw [operands_eq] at h
    split at h
    · simp at h
    · simp at h
    · next hp =>
      have hs := TokenKind.ne_eof_of_operand hp
      obtain ⟨x, rest, hx, hxk⟩ := State.exists_pending (s := s) rfl hs
      have hk := State.kept_addLeaf d hs
      obtain ⟨before, p, rule, hcan, hfit, hover, hw, hrep⟩ :=
        ih _ (State.left_addLeaf_lt d hs) (hk.faithful hf) _ _ _ h
      rw [State.pending_addLeaf d hx] at hw
      rw [hk.depth] at hfit hover
      have hop : IsOperand x.kind := by
        rwa [← TokenKind.operand_iff (State.kind_ne_newline hx), hxk]
      refine ⟨.leaf (.ofToken x) before, p, rule, ⟨hop, hcan⟩, hfit, hover, ?_, hrep⟩
      rw [hx]
      exact .cons rfl hw
    · next hp =>
      have hs := TokenKind.ne_eof_of_group hp
      have hlt : s.skip.left < s.left := State.left_skip_lt hs
      obtain ⟨x, rest, hx, hxk⟩ := State.exists_pending (s := s) rfl hs
      have hparen : x.kind = .lParen := hxk.trans (TokenKind.group_iff.mp hp)
      rcases bind_eq_fatal h with h | ⟨d₂, s₂, h₂, h⟩
      · rcases bind_eq_fatal h with h | ⟨_, _, -, h⟩
        · obtain ⟨p, rule, hover, hw, hrep⟩ := inner_halts (s := s.skip) hf
            (fun u hu => ih u (by omega)) h
          rw [State.pending_skip hx] at hw
          refine ⟨.nil, p, rule, trivial, trivial, hover, ?_, hrep⟩
          rw [hx]
          exact .cons hparen hw
        · simp [append, step] at h
      · -- what is between these parentheses was read, and more comes behind it
        have hkept := (keeps_inner limit d).of_eq h₂
        have hk := (State.kept_skip hs).trans hkept
        obtain ⟨inner, s₁, h₁, k₁⟩ := bind_eq_matched h₂
        obtain ⟨rfl, rfl⟩ := step_eq_matched k₁
        have hl := hkept.left_le
        obtain ⟨before, p, rule, hcan, hfit, hover, hw, hrep⟩ :=
          ih _ (by omega) (hk.faithful hf) _ _ _ h
        rw [hk.depth] at hfit hover
        obtain ⟨e', he', hefit, -, q, -, heq, hqw, -⟩ := inner_sound (s := s.skip) hf
          (fun u _ => operands_sound limit u) h₁ before hcan hfit
        rw [State.pending_skip hx] at hqw
        refine ⟨e', p, rule, he', hefit, hover, ?_, hrep⟩
        rw [heq, hx, List.cons_append, List.append_assoc]
        exact .cons hparen (hqw.trans hw)

theorem expression_halts (hf : s.interner.Faithful) (h : expression limit s = ⟨.fatal e, t⟩) :
    ∃ p rule, Expression.Halts limit s.depth p rule ∧ WrittenUpTo p s.pending t.pending ∧
      (Halt.tooDeep rule).Reported e t :=
  expression_halts_of hf (fun u _ hu => operands_halt limit u hu) h

theorem value_halts
    (h : (expression limit >>= fun e => expect .semicolon >>= fun _ => append d e) s =
      ⟨.fatal e, t⟩) : expression limit s = ⟨.fatal e, t⟩ := by
  rcases bind_eq_fatal h with h | ⟨value, s₁, -, h⟩
  · exact h
  · rcases bind_eq_fatal h with h | ⟨_, s₂, -, h⟩
    · exact absurd h expect_ne_fatal
    · simp [append, step] at h

theorem simpleStatement_halts {depth : Nat} (hf : s.interner.Faithful) (hd : s.depth = depth + 1)
    (hroom : Room limit (depth + 1)) (hne : s.nextKind ≠ .lBrace)
    (h : simpleStatement limit d s = ⟨.fatal e, t⟩) :
    s.GivenUp (Statement.Halts limit t.nextKind depth) e t := by
  cases hc : Construct.ofStatement? s.nextKind with
  | some c =>
    simp only [simpleStatement, hc, refuseConstruct] at h
    obtain ⟨rfl, rfl⟩ := Result.fatal_inj h
    exact .here (h := .refused c) rfl (.keyword hroom hc) ⟨rfl, rfl⟩
  | none =>
    rw [simpleStatement_of_plain d hc] at h
    by_cases hk : s.nextKind = .kwReturn
    · obtain ⟨x, rest, hx, hxk⟩ := State.exists_pending hk (by simp)
      have hkept := State.kept_addLeaf d (State.nextKind_ne_eof hx)
      rw [bind_of_matched (returnLeaf_of_return d hk)] at h
      obtain ⟨p, rule, hhalt, hw, hrep⟩ := expression_halts (hkept.faithful hf) (value_halts h)
      rw [hkept.depth, hd] at hhalt
      rw [State.pending_addLeaf d hx] at hw
      have hleaf : Leaf.ofToken x = ⟨.kwReturn, x.identifier?⟩ := by rw [Leaf.ofToken, hxk]
      refine ⟨.leaf ⟨.kwReturn, x.identifier?⟩ :: p, .tooDeep rule, .ret hroom hhalt, ?_, hrep⟩
      rw [hx]
      exact .cons hleaf hw
    · rw [bind_of_matched (returnLeaf_of_ne d hk)] at h
      obtain ⟨p, rule, hhalt, hw, hrep⟩ := expression_halts hf (value_halts h)
      rw [hd] at hhalt
      rw [State.nextKind_eq_leadKind hw, ← State.nextKind_eq_firstKind] at hne hk hc
      exact ⟨p, .tooDeep rule, .expression hroom hhalt hne hk hc, hw, hrep⟩

def CompoundHalts (limit : Option Nat) (s : State) : Prop :=
  ∀ (d : Draft) (e : ParseError) (t : State), compound limit d s = ⟨.fatal e, t⟩ →
    ∃ (body : List Statement) (p : List Sign) (halt : Halt), (∀ st ∈ body, st.Canonical) ∧
      (∀ st ∈ body, st.Fits limit s.depth) ∧ Statement.Halts limit t.nextKind s.depth p halt ∧
      leadKind p t.nextKind ≠ .rBrace ∧
      WrittenUpTo (body.flatMap Statement.print ++ p) s.pending t.pending ∧ halt.Reported e t

theorem statement_halts_of (hf : s.interner.Faithful)
    (hcompound : ∀ t : State, t.left < s.left → t.interner.Faithful → CompoundHalts limit t)
    (h : statement limit s = ⟨.fatal e, t⟩) :
    s.GivenUp (Statement.Halts limit t.nextKind s.depth) e t := by
  rw [statement_eq] at h
  rcases tryRule_halts h with ⟨hr, hrep, hp⟩ | ⟨hr, u, hu, rfl⟩
  · exact .here hp (.refused hr) hrep
  let s₀ := ((s.enter .statement).openNode .statement 2).2
  have hparts := collect_halts hu
  unfold statementParts at hparts
  split at hparts
  · next hb =>
    obtain ⟨x, rest, hx, hxk⟩ := State.exists_pending (s := s₀) hb (by simp)
    obtain ⟨body, p, halt, hcan, hfits, hhalt, hlead, hw, hrep⟩ := hcompound s₀.skip
      (State.left_skip_lt (s := s₀) (State.nextKind_ne_eof hx)) hf _ _ _ hparts
    rw [State.pending_skip hx] at hw
    refine ⟨_, halt, .compound hr hcan hfits hhalt hlead, ?_, hrep.error, hrep.event⟩
    rw [show s.pending = x :: rest from hx]
    exact .cons hxk hw
  · next hne =>
    obtain ⟨p, halt, hhalt, hw, hrep⟩ := simpleStatement_halts (s := s₀) hf rfl hr hne hparts
    exact ⟨p, halt, hhalt, hw, hrep.error, hrep.event⟩

theorem compound_halts (limit : Option Nat) (s : State) (hf : s.interner.Faithful) :
    CompoundHalts limit s := by
  induction hn : s.left using Nat.strongRecOn generalizing s with
  | ind n ih =>
    subst hn
    have ih (t : State) (ht : t.left < s.left) (hf : t.interner.Faithful) := ih t.left ht t hf rfl
    intro d e t h
    rw [compound_eq] at h
    split at h
    · simp at h
    · next hne =>
      rcases bind_eq_fatal h with h | ⟨d₁, s₁, h₁, h⟩
      · rcases bind_eq_fatal h with h | ⟨_, _, -, h⟩
        · obtain ⟨p, halt, hhalt, hw, hrep⟩ := statement_halts_of hf ih h
          refine ⟨[], p, halt, by simp, by simp, hhalt, ?_, hw, hrep⟩
          rwa [State.nextKind_eq_firstKind t, ← State.nextKind_eq_leadKind hw]
        · simp [append, step] at h
      · obtain ⟨inner, s₂, h₂, k₂⟩ := bind_eq_matched h₁
        obtain ⟨rfl, rfl⟩ := step_eq_matched k₂
        have hlt : s₂.left < s.left := (consumes_statement limit).lt h₂
        have hk := ((keeps_statement limit).of_eq h₂).trans (State.kept_append s₂ d inner)
        obtain ⟨st, hst, hp, -, -, hfit⟩ := statement_sound hf h₂
        obtain ⟨body, p, halt, hcan, hfits, hhalt, hlead, hw, hrep⟩ :=
          ih (s₂.append d inner).2 hlt (hk.faithful hf) _ _ _ h
        rw [hk.depth] at hfits hhalt
        refine ⟨st :: body, p, halt, ?_, ?_, hhalt, hlead, ?_, hrep⟩
        · simpa using ⟨hst, hcan⟩
        · simpa using ⟨hfit, hfits⟩
        · rw [List.flatMap_cons, List.append_assoc]
          exact hp.trans hw

theorem statement_halts (hf : s.interner.Faithful) (h : statement limit s = ⟨.fatal e, t⟩) :
    s.GivenUp (Statement.Halts limit t.nextKind s.depth) e t :=
  statement_halts_of hf (fun u _ hu => compound_halts limit u hu) h

theorem bodyItem_halts (hf : s.interner.Faithful) (hroom : Room limit (s.depth + 2))
    (h : bodyItem limit s = ⟨.fatal e, t⟩) :
    s.GivenUp (Statement.Halts limit t.nextKind s.depth) e t := by
  rcases orElse_eq_fatal h with h | ⟨u, hu, h⟩
  · exact absurd h (mild_variableDefinition limit s hroom e t)
  · have hk := (keeps_variableDefinition limit).of_eq hu
    have hstatement := statement_halts (hk.faithful hf) h
    rw [hk.depth] at hstatement
    exact .of_pending (variableDefinition_eq_mismatch hu).2 hstatement

theorem bodyItems_halts (d : Draft) (s : State) :
    ∀ (e : ParseError) (t : State), s.interner.Faithful → Room limit (s.depth + 2) →
      bodyItems limit d s = ⟨.fatal e, t⟩ →
      ∃ (body : List Local) (p : List Sign) (halt : Halt), (∀ x ∈ body, x.Canonical) ∧
        (∀ x ∈ body, x.Fits limit s.depth) ∧ Statement.Halts limit t.nextKind s.depth p halt ∧
        leadKind p t.nextKind ≠ .rBrace ∧
        WrittenUpTo (body.flatMap Local.print ++ p) s.pending t.pending ∧ halt.Reported e t := by
  fun_induction bodyItems limit d s with
  | case1 => simp
  | case2 d s _ item u hu pushed ih =>
    intro e t hf hroom h
    have hk := ((keeps_bodyItem limit).of_eq hu).trans (State.kept_append u d item)
    obtain ⟨x, hx, hp, -, -, hfit⟩ := bodyItem_sound hf hu
    obtain ⟨body, p, halt, hcan, hfits, hhalt, hlead, hw, hrep⟩ :=
      ih e t (hk.faithful hf) (by rwa [hk.depth]) h
    rw [hk.depth] at hfits hhalt
    refine ⟨x :: body, p, halt, ?_, ?_, hhalt, hlead, ?_, hrep⟩
    · simpa using ⟨hx, hcan⟩
    · simpa using ⟨hfit, hfits⟩
    · rw [List.flatMap_cons, List.append_assoc]
      exact hp.trans hw
  | case3 => simp
  | case4 d s hne e u hu =>
    intro e' t hf hroom h
    obtain ⟨rfl, rfl⟩ := Result.fatal_inj h
    obtain ⟨p, halt, hhalt, hw, hrep⟩ := bodyItem_halts hf hroom hu
    refine ⟨[], p, halt, by simp, by simp, hhalt, ?_, hw, hrep⟩
    rwa [State.nextKind_eq_firstKind u, ← State.nextKind_eq_leadKind hw]

/-- A function is given up in its body only. -/
theorem functionDefinition_halts (hf : s.interner.Faithful) (hroom : Room limit (s.depth + 4))
    (h : functionDefinition limit s = ⟨.fatal e, t⟩) :
    s.GivenUp (Item.Halts limit t.nextKind s.depth) e t := by
  rcases tryRule_halts h with ⟨hr, -⟩ | ⟨hr, u, hu, rfl⟩
  · exact absurd (hroom.mono (by omega)) hr
  let s₀ := s.enter .functionDefinition
  have hf₀ : s₀.interner.Faithful := hf
  have hd₀ : s₀.depth = s.depth + 1 := rfl
  rcases bind_eq_fatal hu with hu | ⟨line, s₁, h₁, hu⟩
  · simp [nextLine, step] at hu
  obtain ⟨rfl, rfl⟩ := step_eq_matched h₁
  rcases bind_eq_fatal hu with hu | ⟨parts, s₂, h₂, hu⟩
  · exact absurd hu (mild_signature limit s₀ (hroom.mono (by omega)) e u)
  rcases bind_eq_fatal hu with hu | ⟨_, s₃, h₃, hu⟩
  · exact absurd hu expect_ne_fatal
  have hk : s₀.Kept s₃ :=
    ((keeps_signature limit).of_eq h₂).trans ((keeps_expect (by simp)).of_eq h₃)
  rcases bind_eq_fatal hu with hu | ⟨list, s₄, -, hu⟩
  · obtain ⟨g, hg, -⟩ := signature_sound (s := s₀) hf₀ h₂
    have hopen := expect_sound (by simp) h₃
    rcases tryRule_halts hu with ⟨hr', -⟩ | ⟨-, v, hv, rfl⟩
    · rw [hk.depth, hd₀] at hr'
      exact absurd (hroom.mono (by omega)) hr'
    let s₅ := ((s₃.enter .functionBody).openNode .statementList 4).2
    have hd : s₅.depth = s.depth + 2 := congrArg (· + 1) (hk.depth.trans hd₀)
    obtain ⟨body, p, halt, hcan, hfits, hhalt, hlead, hw, hrep⟩ := bodyItems_halts _ s₅ e v
      (hk.faithful hf₀) (hroom.mono (by omega)) (collect_halts hv)
    rw [hd] at hfits hhalt
    refine ⟨_, halt, .body (g := g) hcan hfits hhalt hlead, ?_, hrep.error, hrep.event⟩
    exact hg.trans (hopen.trans hw)
  rcases bind_eq_fatal hu with hu | ⟨_, s₅, -, hu⟩
  · exact absurd hu expect_ne_fatal
  · simp [nodeOf] at hu

theorem topLevel_halts (hf : s.interner.Faithful) (hroom : Room limit (s.depth + 4))
    (h : topLevel limit s = ⟨.fatal e, t⟩) :
    s.GivenUp (Item.Halts limit t.nextKind s.depth) e t := by
  rcases orElse_eq_fatal h with h | ⟨s₁, h₁, h⟩
  · exact absurd h (mild_variableDeclaration limit s (hroom.mono (by omega)) e t)
  have hk₁ := (keeps_variableDeclaration limit).of_eq h₁
  have hp₁ := (tryRule_eq_mismatch h₁).2.1
  rcases orElse_eq_fatal h with h | ⟨s₂, h₂, h⟩
  · have hroom₁ : Room limit (s₁.depth + 2) := hroom.mono (by rw [hk₁.depth]; omega)
    exact absurd h (mild_variableDefinition limit s₁ hroom₁ e t)
  have hk₂ := hk₁.trans ((keeps_variableDefinition limit).of_eq h₂)
  have hp₂ := (tryRule_eq_mismatch h₂).2.1.trans hp₁
  rcases orElse_eq_fatal h with h | ⟨s₃, h₃, h⟩
  · have hroom₂ : Room limit (s₂.depth + 3) := hroom.mono (by rw [hk₂.depth]; omega)
    exact absurd h (mild_functionDeclaration limit s₂ hroom₂ e t)
  have hk₃ := hk₂.trans ((keeps_functionDeclaration limit).of_eq h₃)
  have hp₃ := (tryRule_eq_mismatch h₃).2.1.trans hp₂
  rcases orElse_eq_fatal h with h | ⟨s₄, h₄, h⟩
  · have hdefinition := functionDefinition_halts (hk₃.faithful hf) (by rwa [hk₃.depth]) h
    rw [hk₃.depth] at hdefinition
    exact .of_pending hp₃ hdefinition
  · have hp₄ := (tryRule_eq_mismatch h₄).2.1.trans hp₃
    unfold refusedDeclaration at h
    split at h
    · next c hc =>
      obtain ⟨rfl, rfl⟩ := Result.fatal_inj h
      exact .here (h := .refused c) hp₄ (.declaration hc) ⟨rfl, rfl⟩
    · simp at h

theorem unitItems_halts (d : Draft) (s : State) :
    ∀ (e : ParseError) (t : State), s.interner.Faithful → Room limit (s.depth + 4) →
      unitItems limit d s = ⟨.fatal e, t⟩ → (∀ found line, e ≠ .unrecognized found line) →
      s.GivenUp (TranslationUnit.Halts limit t.nextKind s.depth) e t := by
  fun_induction unitItems limit d s with
  | case1 => simp
  | case2 d s _ item u hu pushed ih =>
    intro e t hf hroom h hne
    have hk := ((keeps_topLevel limit).of_eq hu).trans (State.kept_append u d item)
    obtain ⟨i, hi, hp, -, -, hfit⟩ := topLevel_sound hf hu
    obtain ⟨_, halt, ⟨his, hfits, hhalt⟩, hw, hrep⟩ :=
      ih e t (hk.faithful hf) (by rwa [hk.depth]) h hne
    rename_i is p
    rw [hk.depth] at hfits hhalt
    refine ⟨TranslationUnit.print (i :: is) ++ p, halt, .intro ?_ ?_ hhalt, ?_, hrep⟩
    · simpa [TranslationUnit.Canonical] using ⟨hi, his⟩
    · simpa using ⟨hfit, hfits⟩
    · rw [TranslationUnit.print, List.flatMap_cons, List.append_assoc]
      exact hp.trans hw
  | case3 d s _ u hu =>
    intro e t hf hroom h hne
    exact absurd (Result.fatal_inj h).1.symm (hne u.nextKind u.nextLine)
  | case4 d s _ e u hu =>
    intro e' t hf hroom h hne
    obtain ⟨rfl, rfl⟩ := Result.fatal_inj h
    obtain ⟨p, halt, hhalt, hw, hrep⟩ := topLevel_halts hf hroom hu
    have hunit : TranslationUnit.Halts limit u.nextKind s.depth ([] ++ p) halt :=
      .intro (u := []) (by simp [TranslationUnit.Canonical]) (by simp) hhalt
    exact ⟨p, halt, hunit, hw, hrep⟩

/-- Unless no item comes next, a translation unit is given up in the item that does. -/
theorem translationUnit_halts (hf : s.interner.Faithful) (hroom : Room limit (s.depth + 4))
    (h : translationUnit limit s = ⟨.fatal e, t⟩)
    (hne : ∀ found line, e ≠ .unrecognized found line) :
    s.GivenUp (TranslationUnit.Halts limit t.nextKind s.depth) e t :=
  unitItems_halts _ (s.openNode .translationUnit 4).2 e t hf hroom (unitItems_of_unit_fatal h) hne

end Parser

end MiniC
