import MiniC.Proofs.Halting.Complete

namespace MiniC

open Syntax Grammar

namespace Parser

variable {s t : State}

/-- What the rest of a program, at which no item begins, makes of the parse. -/
def Rejects (k : TokenKind) (r : Word) (e : ParseError) : Prop :=
  match Construct.ofDeclaration? k with
  | some c => ∃ line, e = .unsupported c line
  | none =>
    (∃ c line, e = .unsupported c line ∧ ∀ c', StallsInBody c' (k :: r) ↔ c' = c) ∨
      ((∃ line, e = .unrecognized k line) ∧ ∀ c, ¬StallsInBody c (k :: r))

theorem rejects_of_fatal {k : TokenKind} {r : Word} {e : ParseError} (hf : s.interner.Faithful)
    (hk : s.kinds = k :: r) (h : topLevel none s = ⟨.fatal e, t⟩) : Rejects k r e := by
  have hn := State.nextKind_of_kinds hk
  unfold Rejects
  split
  · next c hc =>
    obtain ⟨line, u, hu⟩ := topLevel_of_refused hf (by rwa [hn])
    exact ⟨line, (Result.fatal_inj (h.symm.trans hu)).1⟩
  · next hc =>
    obtain ⟨c, line, he, hc' | hs⟩ := topLevel_eq_fatal hf h
    · rw [hn, hc] at hc'
      simp at hc'
    · refine .inl ⟨c, line, he, fun c' => ⟨fun hs' => ?_, ?_⟩⟩
      · obtain ⟨line', u, hu⟩ := topLevel_of_stalls hf (hk ▸ hs')
        rw [h, he] at hu
        simp only [Result.mk.injEq, Outcome.fatal.injEq, ParseError.unsupported.injEq] at hu
        exact hu.1.1.symm
      · rintro rfl
        exact hk ▸ hs

theorem rejects_of_mismatch {k : TokenKind} {r : Word} (hf : s.interner.Faithful)
    (hk : s.kinds = k :: r) (h : topLevel none s = ⟨.mismatch, t⟩) :
    Rejects k r (.unrecognized t.nextKind t.nextLine) := by
  have hn := State.nextKind_of_kinds hk
  obtain ⟨hp, hc⟩ := topLevel_eq_mismatch h
  rw [hn] at hc
  unfold Rejects
  rw [hc]
  refine .inr ⟨⟨t.nextLine, ?_⟩, fun c hs => ?_⟩
  · rw [State.nextKind_eq_of_pending hp, hn]
  · obtain ⟨line, u, hu⟩ := topLevel_of_stalls hf (hk ▸ hs)
    simp [h] at hu

theorem unitItems_eq_fatal (d : Draft) (s : State) :
    ∀ (e : ParseError) (t : State), s.interner.Faithful → unitItems none d s = ⟨.fatal e, t⟩ →
      ∃ v k r, s.kinds = v ++ k :: r ∧ IsLongestStart (Repeated IsItem) v s.kinds ∧
        Rejects k r e := by
  have kinds_of_ne {s : State} (h : s.nextKind ≠ .eof) : ∃ k r, s.kinds = k :: r := by
    obtain ⟨x, rest, hx, -⟩ := State.exists_pending rfl h
    exact ⟨x.kind, rest.map Token.kind, by rw [State.kinds, hx, List.map_cons]⟩
  fun_induction unitItems none d s with
  | case1 => simp
  | case2 d s _ item u hu pushed ih =>
    intro e t hf h
    have hk := ((keeps_topLevel none).of_eq hu).trans (State.kept_append u d item)
    obtain ⟨i, hi, hw, -⟩ := topLevel_sound hf hu
    obtain ⟨v, k, r, hv, hlong, he⟩ := ih e t (hk.faithful hf) h
    have hkinds : s.kinds = i.print.map Sign.kind ++ u.kinds := State.kinds_of_written hw
    refine ⟨i.print.map Sign.kind ++ v, k, r, ?_, isLongestStart_append hf hi.isItem hkinds hlong, he⟩
    rw [hkinds, List.append_assoc]
    exact congrArg _ hv
  | case3 d s hne u hu =>
    intro e t hf h
    obtain ⟨k, r, hk⟩ := kinds_of_ne hne
    obtain ⟨rfl, -⟩ := Result.fatal_inj h
    refine ⟨[], k, r, hk, isLongestStart_nil hf (by simp [hu]), rejects_of_mismatch hf hk hu⟩
  | case4 d s hne e u hu =>
    intro e' t hf h
    obtain ⟨k, r, hk⟩ := kinds_of_ne hne
    obtain ⟨rfl, -⟩ := Result.fatal_inj h
    exact ⟨[], k, r, hk, isLongestStart_nil hf (by simp [hu]), rejects_of_fatal hf hk hu⟩

/-- Without a limit a translation unit is rejected where the longest row of items ends. -/
theorem translationUnit_rejects (hf : s.interner.Faithful)
    (h : ∀ n, (translationUnit none s).outcome ≠ .matched n) :
    ∃ e v k r, (translationUnit none s).outcome = .fatal e ∧ s.kinds = v ++ k :: r ∧
      IsLongestStart (Repeated IsItem) v s.kinds ∧ Rejects k r e := by
  let start := s.openNode .translationUnit 4
  rcases hr : unitItems none start.1 start.2 with ⟨d' | _ | e, t⟩
  · have hm : translationUnit none s = ⟨.matched d'.close, _⟩ :=
      (bind_of_matched rfl).trans ((bind_of_matched hr).trans rfl)
    exact absurd (by rw [hm]) (h d'.close)
  · exact absurd hr (unitItems_ne_mismatch none start.1 start.2 t)
  · have he : translationUnit none s = ⟨.fatal e, t⟩ :=
      (bind_of_matched rfl).trans (bind_of_fatal hr)
    obtain ⟨v, k, r, hk, hlong, hrej⟩ := unitItems_eq_fatal start.1 start.2 e t hf hr
    exact ⟨e, v, k, r, by rw [he], hk, hlong, hrej⟩

end Parser

/-- Unless it is given up for the limit, a parse is the one without a limit. -/
theorem parse_outcome_eq {tokens : List Token} {arena : Arena}
    (h : ∀ line, (parse tokens arena).outcome ≠ .fatal (.nestingTooDeep line)) :
    (parse tokens arena).outcome =
      (Parser.translationUnit none (.start (Reader.ofTokens tokens .start) arena)).outcome := by
  let s : State := .start (Reader.ofTokens tokens .start) arena
  have hd : s.depth ≤ nestingLimit := Nat.zero_le _
  have hlim := Parser.translationUnit_limited hd
  exact congrArg Result.outcome (hlim.eq_of_ne h)

/-- The kinds of the tokens are split behind the longest row of items: the parse succeeds if nothing
is left, and otherwise the rest tells the error. -/
theorem parse_classified (tokens : List Token) (arena : Arena)
    (h : ∀ line, (parse tokens arena).outcome ≠ .fatal (.nestingTooDeep line)) :
    ∃ u r, programKinds tokens = u ++ r ∧
      IsLongestStart (Repeated IsItem) u (programKinds tokens) ∧
      ((∃ n, (parse tokens arena).outcome = .matched n) ↔ r = []) ∧
      ∀ k w, r = k :: w →
        (∀ c, Construct.ofDeclaration? k = some c →
          ∃ line, (parse tokens arena).outcome = .fatal (.unsupported c line)) ∧
        (Construct.ofDeclaration? k = none →
          (∀ c, (∃ line, (parse tokens arena).outcome = .fatal (.unsupported c line)) ↔
            StallsInBody c r) ∧
          ((∀ c, ¬StallsInBody c r) →
            ∃ line, (parse tokens arena).outcome = .fatal (.unrecognized k line))) := by
  rw [parse_outcome_eq h]
  let s : State := .start (Reader.ofTokens tokens .start) arena
  have hf : s.interner.Faithful := Interner.faithful_empty
  by_cases hm : ∃ n, (Parser.translationUnit none s).outcome = .matched n
  · obtain ⟨n, hn⟩ := hm
    obtain ⟨u, hu, hw, -⟩ :=
      Parser.translationUnit_sound (t := (Parser.translationUnit none s).final) hf (by rw [← hn])
    have hk : programKinds tokens = u.print.map Sign.kind := hw.kinds
    refine ⟨programKinds tokens, [], by simp, ⟨?_, List.prefix_refl _, fun v _ hv => hv.length_le⟩,
      ⟨fun _ => rfl, fun _ => ⟨n, hn⟩⟩, by simp⟩
    rw [hk]
    exact hu.repeated_isItem
  · obtain ⟨e, v, k, r, he, hk, hlong, hrej⟩ :=
      Parser.translationUnit_rejects hf (by simpa using hm)
    refine ⟨v, k :: r, hk, hlong, ⟨fun hn => absurd hn hm, by simp⟩, ?_⟩
    rintro k' w' hkw
    obtain ⟨rfl, rfl⟩ := List.cons.inj hkw
    rw [show (Parser.translationUnit none s).outcome = .fatal e from he]
    unfold Parser.Rejects at hrej
    split at hrej
    · next c hc =>
      obtain ⟨line, rfl⟩ := hrej
      exact ⟨fun c' hc' => ⟨line, by rw [Option.some.inj (hc.symm.trans hc')]⟩, by simp [hc]⟩
    · next hc =>
      refine ⟨by simp [hc], fun _ => ?_⟩
      rcases hrej with ⟨c, line, rfl, hs⟩ | ⟨⟨line, rfl⟩, hs⟩
      · refine ⟨fun c' => ⟨?_, fun hc' => ⟨line, by rw [(hs c').mp hc']⟩⟩, fun hno => ?_⟩
        · rintro ⟨line', he'⟩
          obtain ⟨rfl, -⟩ := ParseError.unsupported.inj (Outcome.fatal.inj he')
          exact (hs c).mpr rfl
        · exact absurd ((hs c).mpr rfl) (hno c)
      · exact ⟨fun c => ⟨by simp, fun hc' => absurd hc' (hs c)⟩, fun _ => ⟨line, rfl⟩⟩

/-- Behind the definition of a variable, an `if` in a function is refused. -/
theorem parse_classified_if :
    let arena := Arena.ofCapacity .packed 4096
    let tokens := [Token.plain .kwInt, .ident "x", .plain .semicolon, .newline, .plain .kwInt,
      .ident "f", .plain .lParen, .plain .rParen, .plain .lBrace, .plain .kwIf]
    let u : Word := [.kwInt, .ident, .semicolon]
    let r : Word := [.kwInt, .ident, .lParen, .rParen, .lBrace, .kwIf]
    (∀ line, (parse tokens arena).outcome ≠ .fatal (.nestingTooDeep line)) ∧
      programKinds tokens = u ++ r ∧ IsLongestStart (Repeated IsItem) u (programKinds tokens) ∧
      StallsInBody .ifStatement r ∧
      ∃ line, (parse tokens arena).outcome = .fatal (.unsupported .ifStatement line) := by
  intro arena tokens u r
  let s : State := .start (Reader.ofTokens tokens .start) arena
  let text := TranslationUnit.print [.definition ⟨intType, some "x"⟩] ++
    [.leaf ⟨.kwInt, none⟩, .leaf ⟨.ident, some "f"⟩, .mark .lParen, .mark .rParen, .mark .lBrace]
  let rest := [Token.plain .kwIf]
  have hitem : IsItem u := .definition ⟨[.kwInt], intType.isType, rfl⟩
  obtain ⟨line, he⟩ : ∃ line, (parse tokens arena).outcome =
      .fatal (.unsupported .ifStatement line) := by
    have hhalts : TranslationUnit.Halts (some nestingLimit) (firstKind rest) 0 text
        (.refused .ifStatement) :=
      .intro (by simp [TranslationUnit.Canonical, Item.Canonical, intType])
        (by simp [Item.Fits]) halts_if
    have hw : WrittenUpTo text s.pending rest := by
      refine ⟨(tokens.filter (·.isSignificant)).take 8, ?_, by decide⟩
      repeat' constructor
    obtain ⟨e, t, ht, hrep, -⟩ :=
      Parser.translationUnit_of_halts (s := s) room_nestingLimit Interner.faithful_empty hhalts hw
    exact ⟨t.nextLine, (congrArg Result.outcome ht).trans (congrArg _ hrep.error)⟩
  have h : ∀ line, (parse tokens arena).outcome ≠ .fatal (.nestingTooDeep line) := by simp [he]
  obtain ⟨v, w, hk, hlong, hmatched, hrest⟩ := parse_classified tokens arena h
  obtain ⟨v', rfl⟩ : u <+: v :=
    List.prefix_of_prefix_length_le (List.prefix_append u r) hlong.start
      (hlong.longest u ⟨[u], by simpa using hitem, rfl⟩ (List.prefix_append u r))
  have hr : r = v' ++ w := by
    have hall : u ++ r = u ++ (v' ++ w) := by rw [← List.append_assoc, ← hk]; rfl
    exact List.append_cancel_left hall
  have hnone : ∀ k ∈ r, Construct.ofDeclaration? k = none := by decide
  have hpart : ∀ k ∈ r.tail, isTypePart k = false := by decide
  cases w with
  | nil =>
    obtain ⟨n, hn⟩ := hmatched.mpr rfl
    simp [he] at hn
  | cons k w =>
    have hstalls : StallsInBody .ifStatement (k :: w) :=
      (((hrest k w rfl).2 (hnone k (by simp [hr]))).1 .ifStatement).mp ⟨line, he⟩
    -- a function begins with a part of its type, which there is none of behind the first kind
    cases v' with
    | nil =>
      rw [List.append_nil] at hlong
      exact ⟨h, rfl, hlong, hr ▸ hstalls, line, he⟩
    | cons x v' =>
      obtain ⟨k', w', hkw, hk'⟩ := hstalls.head_typePart
      obtain ⟨rfl, -⟩ := List.cons.inj hkw
      simp [hpart k (by simp [hr])] at hk'

end MiniC
