import MiniC.Proofs.Parsing.Function

namespace MiniC

open Syntax Grammar

namespace Syntax.Item

/-- With so many rules in progress around it, there is room to try all that the item is made of. -/
def Fits (limit : Option Nat) (depth : Nat) : Item → Prop
  | function _ body => ∀ x ∈ body, x.Fits limit (depth + 2)
  | _ => True

theorem Canonical.fits_none {i : Item} (h : i.Canonical) (depth : Nat) : i.Fits none depth := by
  cases i with
  | function g body => exact fun x hx => (h x hx).fits_none _
  | _ => trivial

end Syntax.Item

namespace Parser

variable {limit : Option Nat} {s t : State} {d d' : Draft} {n : Node}

theorem keeps_topLevel (limit : Option Nat) : Keeps (topLevel limit) :=
  (keeps_variableDeclaration limit).orElse <|
    (keeps_variableDefinition limit).orElse <|
      (keeps_functionDeclaration limit).orElse <|
        (keeps_functionDefinition limit).orElse keeps_refusedDeclaration

theorem keeps_rejectUnit {α : Type} : Keeps (rejectUnit : Parser α) :=
  fun s => s.kept_record _

theorem keeps_unitItems (limit : Option Nat) (d : Draft) : Keeps (unitItems limit d) := by
  intro s
  fun_induction unitItems limit d s with
  | case1 d s _ => exact .refl s
  | case2 d s _ item t h pushed ih =>
    exact (((keeps_topLevel limit).of_eq h).trans (State.kept_append t d item)).trans ih
  | case3 d s _ t h => exact ((keeps_topLevel limit).of_eq h).trans (State.kept_record t _)
  | case4 d s _ e t h => exact (keeps_topLevel limit).of_eq h

theorem keeps_translationUnit (limit : Option Nat) : Keeps (translationUnit limit) := by
  refine (keeps_openNode _ _).andThen fun d => ?_
  refine (keeps_unitItems limit d).andThen fun d => ?_
  exact Keeps.andThen (fun s => State.kept_record s _) fun _ => keeps_pure _

theorem refusedDeclaration_ne_matched : refusedDeclaration s ≠ ⟨.matched n, t⟩ := by
  unfold refusedDeclaration
  split <;> simp [refuseConstruct]

theorem variableDefinition_room (h : variableDefinition limit s = ⟨.matched n, t⟩) :
    Room limit (s.depth + 2) := by
  obtain ⟨u, k, -⟩ := tryRule_eq_matched h
  obtain ⟨line, s₁, h₁, k₁⟩ := bind_eq_matched k
  obtain ⟨ty, s₂, h₂, -⟩ := bind_eq_matched k₁
  obtain ⟨rfl, rfl⟩ := step_eq_matched h₁
  exact room_of_matched h₂

/-- What is read at top level is a canonical item. -/
theorem topLevel_sound (hf : s.interner.Faithful) (h : topLevel limit s = ⟨.matched n, t⟩) :
    ∃ i : Item, i.Canonical ∧ WrittenUpTo i.print s.pending t.pending ∧ n.shape = i.shape ∧
      n.lines = i.firsts.map s.lineOf ∧ i.Fits limit s.depth := by
  rcases orElse_eq_matched h with h | ⟨s₁, h₁, h⟩
  · obtain ⟨v, hw, hn, hl⟩ := variableDeclaration_sound hf h
    exact ⟨.declaration v, trivial, hw, hn, hl, trivial⟩
  have hk₁ := (keeps_variableDeclaration limit).of_eq h₁
  have hp₁ := (tryRule_eq_mismatch h₁).2.1
  rcases orElse_eq_matched h with h | ⟨s₂, h₂, h⟩
  · obtain ⟨⟨ty, x⟩, hw, hn, hlines⟩ := variableDefinition_sound (hk₁.faithful hf) h
    rw [hp₁] at hw
    rw [hk₁.lineOf_eq hp₁] at hlines
    refine ⟨.definition ⟨ty, x⟩, fun l hl hext => ?_, hw, hn, hlines, trivial⟩
    -- behind an `extern` that comes first, a declaration would have been read
    obtain ⟨ls, hty⟩ := ty
    cases ls with
    | nil => simp at hl
    | cons l' ls =>
      obtain rfl : l' = l := by simpa using hl
      obtain ⟨y, m, hy, hl, hm⟩ := WrittenUpTo.uncons hw
      rw [List.map_cons, hext] at hty
      let v : Variable := ⟨⟨ls, hty.of_cons_extern⟩, x⟩
      have hdecl : WrittenUpTo (Item.declaration v).print s.pending t.pending := by
        rw [hy]
        exact .cons (hl.kind_eq.trans hext) hm
      have hroom := variableDefinition_room h
      rw [hk₁.depth] at hroom
      obtain ⟨n', t', hn', -⟩ := variableDeclaration_complete hroom hf hdecl
      simp [hn'] at h₁
  have hk₂ := hk₁.trans ((keeps_variableDefinition limit).of_eq h₂)
  have hp₂ := (tryRule_eq_mismatch h₂).2.1.trans hp₁
  rcases orElse_eq_matched h with h | ⟨s₃, h₃, h⟩
  · obtain ⟨g, hw, hn, hl⟩ := functionDeclaration_sound (hk₂.faithful hf) h
    rw [hp₂] at hw
    rw [hk₂.lineOf_eq hp₂] at hl
    exact ⟨.prototype g, trivial, hw, hn, hl, trivial⟩
  have hk₃ := hk₂.trans ((keeps_functionDeclaration limit).of_eq h₃)
  have hp₃ := (tryRule_eq_mismatch h₃).2.1.trans hp₂
  rcases orElse_eq_matched h with h | ⟨s₄, -, h⟩
  · obtain ⟨g, body, hbody, hw, hn, hl, hfits⟩ := functionDefinition_sound (hk₃.faithful hf) h
    rw [hp₃] at hw
    rw [hk₃.lineOf_eq hp₃] at hl
    rw [hk₃.depth] at hfits
    exact ⟨.function g body, hbody, hw, hn, hl, hfits⟩
  · exact absurd h refusedDeclaration_ne_matched

theorem variableDeclaration_mismatch (hroom : Room limit (s.depth + 2)) (hf : s.interner.Faithful)
    (h : ∀ (v : Variable) (rest : List Token),
      ¬WrittenUpTo (Item.declaration v).print s.pending rest) :
    ∃ t, variableDeclaration limit s = ⟨.mismatch, t⟩ ∧ s.Kept t ∧ t.pending = s.pending := by
  obtain ⟨t, ht⟩ := (mild_variableDeclaration limit).exists_mismatch hroom fun n t hn => by
    obtain ⟨v, hv, -⟩ := variableDeclaration_sound hf hn
    exact h v t.pending hv
  exact ⟨t, ht, (keeps_variableDeclaration limit).of_eq ht, (tryRule_eq_mismatch ht).2.1⟩

theorem functionDeclaration_mismatch (hroom : Room limit (s.depth + 3)) (hf : s.interner.Faithful)
    (h : ∀ (g : Signature) (rest : List Token),
      ¬WrittenUpTo (Item.prototype g).print s.pending rest) :
    ∃ t, functionDeclaration limit s = ⟨.mismatch, t⟩ ∧ s.Kept t ∧ t.pending = s.pending := by
  obtain ⟨t, ht⟩ := (mild_functionDeclaration limit).exists_mismatch hroom fun n t hn => by
    obtain ⟨g, hg, -⟩ := functionDeclaration_sound hf hn
    exact h g t.pending hg
  exact ⟨t, ht, (keeps_functionDeclaration limit).of_eq ht, (tryRule_eq_mismatch ht).2.1⟩

/-- Before an opening parenthesis there is no variable that ends with a semicolon. -/
theorem not_semicolon_of_signature {v g w r : Word} (hv : IsHead v) (hg : IsSignature g) :
    v ++ .semicolon :: w ≠ g ++ r := by
  intro h
  obtain ⟨u, u', hu, rfl⟩ := hg.exists_head
  have := hv.rest_unique hu.isHead (by simpa using h)
  simp at this

theorem topLevel_of_signature {g r : Word} (hg : IsSignature g) (hroom : Room limit (s.depth + 2))
    (hf : s.interner.Faithful) (h : s.kinds = g ++ r) :
    ∃ u, topLevel limit s = ((functionDeclaration limit).orElse
        ((functionDefinition limit).orElse refusedDeclaration)) u ∧
      s.Kept u ∧ u.pending = s.pending := by
  obtain ⟨t, ht, hk, hp⟩ := variableDeclaration_mismatch hroom hf fun v rest hw => by
    refine not_semicolon_of_signature v.isVariable_kinds.isHead.cons_extern hg ?_
      (w := rest.map Token.kind) (r := r)
    rw [← h]
    simpa [Item.print, Sign.kind] using (State.kinds_of_written hw).symm
  obtain ⟨u, hu, hku, hpu⟩ := variableDefinition_mismatch (s := t) (by rwa [hk.depth])
    (hk.faithful hf) fun v rest hw => by
      refine not_semicolon_of_signature v.isVariable_kinds.isHead hg ?_
        (w := rest.map Token.kind) (r := r)
      rw [hp] at hw
      rw [← h]
      simpa [Sign.kind] using (State.kinds_of_written hw).symm
  refine ⟨u, ?_, hk.trans hku, hpu.trans hp⟩
  exact (orElse_of_mismatch ht).trans (orElse_of_mismatch hu)

/-- Before an opening brace, a signature does not make a function declaration either. -/
theorem topLevel_of_body {g r : Word} (hg : IsSignature g) (hroom : Room limit (s.depth + 3))
    (hf : s.interner.Faithful) (h : s.kinds = g ++ .lBrace :: r) :
    ∃ u, topLevel limit s = ((functionDefinition limit).orElse refusedDeclaration) u ∧
      s.Kept u ∧ u.pending = s.pending := by
  obtain ⟨t, ht, hk, hp⟩ := topLevel_of_signature hg (hroom.mono (by omega)) hf h
  obtain ⟨u, hu, hku, hpu⟩ := functionDeclaration_mismatch (s := t) (by rwa [hk.depth])
    (hk.faithful hf) fun g' rest hw => by
      have hkinds :
          g ++ .lBrace :: r = g'.print.map Sign.kind ++ .semicolon :: rest.map Token.kind := by
        rw [hp] at hw
        rw [← h]
        simpa [Item.print, Sign.kind] using State.kinds_of_written hw
      have := hg.rest_unique g'.isSignature_kinds hkinds
      simp at this
  exact ⟨u, ht.trans (orElse_of_mismatch hu), hk.trans hku, hpu.trans hp⟩

/-- Every canonical item for which there is room is read as it is written. -/
theorem topLevel_complete {i : Item} {rest : List Token} (hi : i.Canonical)
    (hroom : Room limit (s.depth + 4)) (hfit : i.Fits limit s.depth) (hf : s.interner.Faithful)
    (h : WrittenUpTo i.print s.pending rest) :
    ∃ n t, topLevel limit s = ⟨.matched n, t⟩ ∧ t.pending = rest ∧ n.shape = i.shape := by
  cases i with
  | declaration v =>
    obtain ⟨n, t, ht, hp, hn⟩ := variableDeclaration_complete (hroom.mono (by omega)) hf h
    exact ⟨n, t, orElse_of_matched ht, hp, hn⟩
  | definition v =>
    obtain ⟨u, hu, hk, hp⟩ := variableDeclaration_mismatch (hroom.mono (by omega)) hf
      fun v' rest' hw => by
        obtain ⟨y, m, hy, hext, -⟩ := WrittenUpTo.uncons hw
        rw [hy] at h
        -- a definition that begins with `extern` would be a declaration
        obtain ⟨⟨ls, hty⟩, x⟩ := v
        cases ls with
        | nil => exact hty.ne_nil rfl
        | cons l ls => exact hi l rfl ((WrittenUpTo.of_cons h).1.kind_eq.symm.trans hext)
    obtain ⟨n, t, ht, hpt, hn⟩ := variableDefinition_complete (s := u)
      (hroom.mono (by rw [hk.depth]; omega)) (hk.faithful hf) (by rwa [hp])
    exact ⟨n, t, (orElse_of_mismatch hu).trans (orElse_of_matched ht), hpt, hn⟩
  | prototype g =>
    obtain ⟨u, hu, hk, hp⟩ := topLevel_of_signature g.isSignature_kinds (hroom.mono (by omega)) hf
      (r := .semicolon :: rest.map Token.kind)
      (by simpa [Item.print, Sign.kind] using State.kinds_of_written h)
    obtain ⟨n, t, ht, hpt, hn⟩ := functionDeclaration_complete (s := u)
      (hroom.mono (by rw [hk.depth]; omega)) (hk.faithful hf) (by rwa [hp])
    exact ⟨n, t, hu.trans (orElse_of_matched ht), hpt, hn⟩
  | function g body =>
    obtain ⟨u, hu, hk, hp⟩ := topLevel_of_body g.isSignature_kinds (hroom.mono (by omega)) hf
      (r := (body.flatMap Local.print).map Sign.kind ++ .rBrace :: rest.map Token.kind)
      (by simpa [Item.print, Sign.kind] using State.kinds_of_written h)
    obtain ⟨n, t, ht, hpt, hn⟩ := functionDefinition_complete (s := u) hi
      (by rwa [hk.depth]) (by rwa [hk.depth]) (hk.faithful hf) (by rwa [hp])
    exact ⟨n, t, hu.trans (orElse_of_matched ht), hpt, hn⟩

theorem refusedDeclaration_eq_fatal {e : ParseError} (h : refusedDeclaration s = ⟨.fatal e, t⟩) :
    ∃ c line, e = .unsupported c line ∧ Construct.ofDeclaration? s.nextKind = some c := by
  unfold refusedDeclaration at h
  split at h
  · next c hc =>
    simp only [refuseConstruct, Result.mk.injEq, Outcome.fatal.injEq] at h
    exact ⟨c, s.nextLine, h.1.symm, hc⟩
  · simp at h

/-- The parse is given up at a refused declaration, or in the body of a function. -/
theorem topLevel_eq_fatal {e : ParseError} (hf : s.interner.Faithful)
    (h : topLevel none s = ⟨.fatal e, t⟩) :
    ∃ c line, e = .unsupported c line ∧
      (Construct.ofDeclaration? s.nextKind = some c ∨ StallsInBody c s.kinds) := by
  rcases orElse_eq_fatal h with h | ⟨s₁, h₁, h⟩
  · exact absurd h (mild_variableDeclaration none s (room_none _) e t)
  have hk₁ := (keeps_variableDeclaration none).of_eq h₁
  have hp₁ := (tryRule_eq_mismatch h₁).2.1
  rcases orElse_eq_fatal h with h | ⟨s₂, h₂, h⟩
  · exact absurd h (mild_variableDefinition none s₁ (room_none _) e t)
  have hk₂ := hk₁.trans ((keeps_variableDefinition none).of_eq h₂)
  have hp₂ := (tryRule_eq_mismatch h₂).2.1.trans hp₁
  rcases orElse_eq_fatal h with h | ⟨s₃, h₃, h⟩
  · exact absurd h (mild_functionDeclaration none s₂ (room_none _) e t)
  have hk₃ := hk₂.trans ((keeps_functionDeclaration none).of_eq h₃)
  have hp₃ := (tryRule_eq_mismatch h₃).2.1.trans hp₂
  rcases orElse_eq_fatal h with h | ⟨s₄, h₄, h⟩
  · obtain ⟨c, line, he, hs⟩ := functionDefinition_eq_fatal (hk₃.faithful hf) h
    refine ⟨c, line, he, .inr ?_⟩
    rwa [State.kinds, hp₃] at hs
  · have hp₄ := (tryRule_eq_mismatch h₄).2.1.trans hp₃
    obtain ⟨c, line, he, hc⟩ := refusedDeclaration_eq_fatal h
    rw [State.nextKind_eq_of_pending hp₄] at hc
    exact ⟨c, line, he, .inl hc⟩

theorem topLevel_of_stalls {c : Construct} (hf : s.interner.Faithful) (h : StallsInBody c s.kinds) :
    ∃ line t, topLevel none s = ⟨.fatal (.unsupported c line), t⟩ := by
  obtain ⟨g, b, v, hg, -, -, hk⟩ := id h
  obtain ⟨u, hu, hku, hp⟩ := topLevel_of_body hg (room_none _) hf hk
  obtain ⟨line, t, ht⟩ := functionDefinition_of_stalls (s := u) (hku.faithful hf)
    (by rwa [State.kinds, hp])
  exact ⟨line, t, hu.trans (orElse_of_fatal ht)⟩

theorem topLevel_eq_mismatch (h : topLevel limit s = ⟨.mismatch, t⟩) :
    t.pending = s.pending ∧ Construct.ofDeclaration? s.nextKind = none := by
  obtain ⟨s₁, h₁, h⟩ := orElse_eq_mismatch h
  obtain ⟨s₂, h₂, h⟩ := orElse_eq_mismatch h
  obtain ⟨s₃, h₃, h⟩ := orElse_eq_mismatch h
  obtain ⟨s₄, h₄, h⟩ := orElse_eq_mismatch h
  have hp : s₄.pending = s.pending := by
    rw [(tryRule_eq_mismatch h₄).2.1, (tryRule_eq_mismatch h₃).2.1, (tryRule_eq_mismatch h₂).2.1,
      (tryRule_eq_mismatch h₁).2.1]
  rw [← State.nextKind_eq_of_pending hp]
  unfold refusedDeclaration at h
  split at h
  · simp [refuseConstruct] at h
  · next hc =>
    obtain ⟨-, rfl⟩ := Result.mk.inj h
    exact ⟨hp, hc⟩

theorem not_isTypePart_of_refused {c : Construct} {k : TokenKind} {w : Word} (hk : s.kinds = k :: w)
    (h : Construct.ofDeclaration? s.nextKind = some c) : ¬isTypePart k = true := by
  intro hpart
  rw [State.nextKind_of_kinds hk, ofDeclaration?_of_isTypePart hpart] at h
  simp at h

theorem topLevel_fatal_of_refused {c : Construct} (hf : s.interner.Faithful)
    (h : Construct.ofDeclaration? s.nextKind = some c) :
    ∃ e t, topLevel limit s = ⟨.fatal e, t⟩ := by
  rcases he : topLevel limit s with ⟨n | _ | e, t⟩
  · obtain ⟨i, hi, hw, -⟩ := topLevel_sound hf he
    obtain ⟨k, w, hk, hpart⟩ := hi.isItem.head_typePart
    have hkinds := State.kinds_of_written hw
    rw [hk] at hkinds
    exact absurd hpart (not_isTypePart_of_refused hkinds h)
  · simp [(topLevel_eq_mismatch he).2] at h
  · exact ⟨e, t, rfl⟩

/-- The keyword of a refused declaration decides alone. -/
theorem topLevel_of_refused {c : Construct} (hf : s.interner.Faithful)
    (h : Construct.ofDeclaration? s.nextKind = some c) :
    ∃ line t, topLevel none s = ⟨.fatal (.unsupported c line), t⟩ := by
  have hfatal : ∃ e t, topLevel none s = ⟨.fatal e, t⟩ := topLevel_fatal_of_refused hf h
  obtain ⟨e, t, he⟩ := hfatal
  obtain ⟨c', line, rfl, hc | hs⟩ := topLevel_eq_fatal hf he
  · obtain rfl := Option.some.inj (h.symm.trans hc)
    exact ⟨line, t, he⟩
  · obtain ⟨k, w, hk, hpart⟩ := hs.head_typePart
    exact absurd hpart (not_isTypePart_of_refused hk h)

theorem topLevel_of_kinds {i r : Word} (hi : IsItem i) (hf : s.interner.Faithful)
    (h : s.kinds = i ++ r) : ∃ n t, topLevel none s = ⟨.matched n, t⟩ ∧ t.kinds = r := by
  obtain ⟨v, rest, hp, rfl, rfl⟩ := List.map_eq_append_iff.mp h
  obtain ⟨x, hx, hw⟩ := exists_item hi
  obtain ⟨n, t, ht, hpt, -⟩ :=
    topLevel_complete hx (room_none _) (hx.fits_none _) hf ⟨v, hw, hp⟩
  exact ⟨n, t, ht, by rw [State.kinds, hpt]⟩

/-- Only one item can be read from a word. -/
theorem item_rest_unique {i i' r r' : Word} (hf : s.interner.Faithful) (hi : IsItem i)
    (hi' : IsItem i') (h : s.kinds = i ++ r) (h' : s.kinds = i' ++ r') : r = r' := by
  obtain ⟨n, t, ht, hk⟩ := topLevel_of_kinds hi hf h
  obtain ⟨n', t', ht', hk'⟩ := topLevel_of_kinds hi' hf h'
  obtain ⟨-, rfl⟩ := Result.mk.inj (ht.symm.trans ht')
  exact hk.symm.trans hk'

end Parser

end MiniC
