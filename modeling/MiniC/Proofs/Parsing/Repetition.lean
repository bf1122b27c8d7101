import MiniC.Parse.Session
import MiniC.Proofs.Halting.Report
import MiniC.Proofs.Parsing.Order

namespace MiniC

open Syntax Grammar

namespace Parser

variable {limit : Option Nat} {s t : State}

theorem nextKind_of_unitItems_matched (limit : Option Nat) (d : Draft) (s : State) :
    ∀ d' t, unitItems limit d s = ⟨.matched d', t⟩ → t.nextKind = .eof := by
  fun_induction unitItems limit d s with
  | case1 d s hs =>
    intro d' t h
    obtain ⟨-, rfl⟩ := Result.mk.inj h
    exact hs
  | case2 d s _ item u hu pushed ih => exact ih
  | case3 => simp [rejectUnit]
  | case4 => simp

theorem nextKind_of_unit_matched {n : Node} (h : translationUnit limit s = ⟨.matched n, t⟩) :
    t.nextKind = .eof := by
  obtain ⟨d, s₁, -, h⟩ := bind_eq_matched h
  obtain ⟨d', s₂, hitems, h⟩ := bind_eq_matched h
  obtain ⟨_, s₃, hrecord, h⟩ := bind_eq_matched h
  obtain ⟨-, rfl⟩ := step_eq_matched hrecord
  obtain ⟨-, rfl⟩ := pure_eq_matched h
  exact nextKind_of_unitItems_matched limit d s₁ d' s₂ hitems

/-- A parse that mismatches at top level stays where it is. -/
theorem same_of_topLevel_mismatch (hf : s.interner.Faithful)
    (h : topLevel limit s = ⟨.mismatch, t⟩) : s.Same t := by
  have hkept := (keeps_topLevel limit).of_eq h
  exact .of_kept hkept (hkept.reaches.eq_of_pending (topLevel_eq_mismatch h).1) hf

theorem topLevel_ne_unrecognized {found : TokenKind} {line : Nat} (hf : s.interner.Faithful)
    (hroom : Room limit (s.depth + 4)) :
    topLevel limit s ≠ ⟨.fatal (.unrecognized found line), t⟩ := by
  intro h
  obtain ⟨p, halt, -, -, hrep⟩ := topLevel_halts hf hroom h
  have herror := hrep.error
  cases halt <;> simp [Halt.error] at herror

/-- What is not recognised is a mismatch at the place where the parse is given up. -/
theorem topLevel_mismatch_of_unrecognized (limit : Option Nat) (d : Draft) (s : State) :
    ∀ found line t, s.interner.Faithful → Room limit (s.depth + 4) →
      unitItems limit d s = ⟨.fatal (.unrecognized found line), t⟩ →
      ∃ v, (topLevel limit v).outcome = .mismatch ∧ v.Same t := by
  fun_induction unitItems limit d s with
  | case1 => simp
  | case2 d s _ item u hu pushed ih =>
    intro found line t hf hroom h
    have hkept := ((keeps_topLevel limit).of_eq hu).trans (State.kept_append u d item)
    exact ih found line t (hkept.faithful hf) (by rwa [hkept.depth]) h
  | case3 d s _ u hu =>
    intro found line t hf _ h
    obtain ⟨-, rfl⟩ := Result.fatal_inj h
    have hsame := same_of_topLevel_mismatch hf hu
    exact ⟨s, by rw [hu], hsame.readers, hsame.depth, hf, hsame.faithful'⟩
  | case4 d s _ e u hu =>
    intro found line t hf hroom h
    obtain ⟨rfl, -⟩ := Result.fatal_inj h
    exact absurd hu (topLevel_ne_unrecognized hf hroom)

theorem topLevel_mismatch_of_same (h : s.Same t)
    (hs : (topLevel (some nestingLimit) s).outcome = .mismatch) :
    (topLevel (some nestingLimit) t).outcome = .mismatch := by
  have hcoupled := Tandem.same.topLevel h
  generalize topLevel (some nestingLimit) s = r at hcoupled hs
  generalize topLevel (some nestingLimit) t = r' at hcoupled
  cases hcoupled with
  | matched _ _ => simp at hs
  | mismatch _ => rfl
  | fatal _ _ => simp at hs
  | lost hl => exact hl.elim

/-- Nothing begins with a kind that is no part of a type and introduces no refused declaration. -/
theorem topLevel_mismatch_of_kind (hf : s.interner.Faithful)
    (hroom : Room (some nestingLimit) (s.depth + 3)) (hpart : isTypePart s.nextKind = false)
    (hc : Construct.ofDeclaration? s.nextKind = none) :
    (topLevel (some nestingLimit) s).outcome = .mismatch := by
  rw [← Alternative.inOrder_all]
  rcases Alternative.inOrder_first Alternative.all hf with ⟨t, ht, -⟩ | ⟨_, a, _, _, -, -, -, ha, -⟩
  · rw [ht]
  · obtain ⟨k, r, hk, hopen⟩ := (Alternative.opens_of_ne hf hroom ha).head
    rw [State.nextKind_of_kinds hk] at hpart hc
    simp [hpart, hc] at hopen

theorem translationUnit_of_eof (hs : s.nextKind = .eof) :
    ∃ n t, translationUnit limit s = ⟨.matched n, t⟩ ∧ n.children = [] ∧ t.reader = s.reader := by
  let opened := s.openNode .translationUnit 4
  have hitems : unitItems limit opened.1 opened.2 = ⟨.matched opened.1, opened.2⟩ := by
    rw [unitItems_eq, if_pos (show opened.2.nextKind = .eof from hs)]
  exact ⟨_, _, (bind_of_matched rfl).trans ((bind_of_matched hitems).trans rfl), rfl, rfl⟩

theorem translationUnit_of_mismatch (hf : s.interner.Faithful) (hs : s.nextKind ≠ .eof)
    (h : (topLevel (some nestingLimit) s).outcome = .mismatch) :
    ∃ t, translationUnit (some nestingLimit) s =
      ⟨.fatal (.unrecognized s.nextKind s.nextLine), t⟩ ∧ t.reader = s.reader := by
  let opened := (s.openNode .translationUnit 4).2
  have hopened : s.Same opened := .of_kept (s.kept_openNode _ _) rfl hf
  obtain ⟨t, ht⟩ : ∃ t, topLevel (some nestingLimit) opened = ⟨.mismatch, t⟩ :=
    ⟨_, by rw [← topLevel_mismatch_of_same hopened h]⟩
  have hreader : t.reader = s.reader :=
    (hopened.trans (same_of_topLevel_mismatch hf ht)).readers.symm
  have hitems := unitItems_of_mismatch (s.openNode .translationUnit 4).1 (s := opened) hs ht
  have hunit : translationUnit (some nestingLimit) s = rejectUnit t :=
    (bind_of_matched rfl).trans (bind_of_fatal hitems)
  refine ⟨t.record (.unitRejected (.unrecognized t.nextKind t.nextLine)), ?_, hreader⟩
  rw [hunit, State.nextKind, State.nextLine, ← hreader]
  rfl

theorem translationUnit_of_refused {c : Construct} (hf : s.interner.Faithful)
    (hroom : Room limit (s.depth + 4)) (hc : Construct.ofDeclaration? s.nextKind = some c) :
    ∃ t, translationUnit limit s = ⟨.fatal (.unsupported c s.nextLine), t⟩ ∧
      t.reader = s.reader := by
  have hhalts : TranslationUnit.Halts limit (firstKind s.pending) s.depth ([] ++ []) (.refused c) :=
    .intro (u := []) (by simp [TranslationUnit.Canonical]) (by simp)
      (.declaration (by rwa [← State.nextKind_eq_firstKind]))
  obtain ⟨e, t, ht, hrep, hp⟩ := translationUnit_of_halts hroom hf hhalts (.nil _)
  have hreader := ((keeps_translationUnit limit).of_eq ht).reaches.eq_of_pending hp
  refine ⟨t, ?_, hreader⟩
  rw [ht, hrep.error, Halt.error, State.nextLine, hreader]
  rfl

end Parser

/-- The outcome of a parse and that of another one from where it ended, before a token of the kind
`k`. -/
inductive Outcome.Settles (k : TokenKind) : Outcome Node → Outcome Node → Prop where
  | parsed {n m : Node} : m.children = [] → Settles k (.matched n) (.matched m)
  | unrecognized (line : Nat) :
      Settles k (.fatal (.unrecognized k line)) (.fatal (.unrecognized k line))
  | declaration {c : Construct} (line : Nat) : Construct.ofDeclaration? k = some c →
      Settles k (.fatal (.unsupported c line)) (.fatal (.unsupported c line))
  | statement {c : Construct} (line : Nat) : Construct.ofStatement? k = some c →
      Settles k (.fatal (.unsupported c line)) (.fatal (.unrecognized k line))

/-- A parse from this place comes to such an outcome and stays there. -/
def State.RestsWith (P : Outcome Node → Prop) (s : State) : Prop :=
  ∀ t, s.Same t → let r := Parser.translationUnit (some nestingLimit) t
    P r.outcome ∧ r.final.reader = t.reader

theorem State.RestsWith.units {P : Outcome Node → Prop} {s : State} (h : s.RestsWith P)
    (count : Nat) : ∀ t, s.Same t →
      ∀ r ∈ Session.units count t, P r.outcome ∧ r.final.reader = s.reader := by
  induction count with
  | zero => simp [Session.units]
  | succ count ih =>
    intro t ht r hr
    obtain ⟨hp, hreader⟩ := h t ht
    rcases List.mem_cons.mp hr with rfl | hr
    · exact ⟨hp, hreader.trans ht.readers.symm⟩
    · have hkept := Parser.keeps_translationUnit (some nestingLimit) t
      exact ih _ (ht.trans (.of_kept hkept hreader ht.faithful')) r hr

namespace State.RestsWith

variable {s : State}

theorem of_eof (h : s.nextKind = .eof) :
    s.RestsWith fun o => ∃ m, o = .matched m ∧ m.children = [] := by
  intro t ht
  have hnext : t.nextKind = .eof := ht.nextKind.symm.trans h
  obtain ⟨m, u, hu, hm, hreader⟩ := Parser.translationUnit_of_eof hnext
  rw [hu]
  exact ⟨⟨m, rfl, hm⟩, hreader⟩

theorem of_mismatch (hs : s.nextKind ≠ .eof)
    (h : (Parser.topLevel (some nestingLimit) s).outcome = .mismatch) :
    s.RestsWith (· = .fatal (.unrecognized s.nextKind s.nextLine)) := by
  intro t ht
  rw [ht.nextKind] at hs
  obtain ⟨u, hu, hreader⟩ := Parser.translationUnit_of_mismatch ht.faithful' hs
    (Parser.topLevel_mismatch_of_same ht h)
  rw [hu, ht.nextKind, ht.nextLine]
  exact ⟨rfl, hreader⟩

theorem of_refused {c : Construct} (hd : s.depth = 0)
    (hc : Construct.ofDeclaration? s.nextKind = some c) :
    s.RestsWith (· = .fatal (.unsupported c s.nextLine)) := by
  intro t ht
  have hroom : Room (some nestingLimit) (t.depth + 4) := by
    rw [← ht.depth, hd]
    exact room_nestingLimit
  rw [ht.nextKind] at hc
  obtain ⟨u, hu, hreader⟩ := Parser.translationUnit_of_refused ht.faithful' hroom hc
  rw [hu, ht.nextLine]
  exact ⟨rfl, hreader⟩

theorem of_statement {c : Construct} (hd : s.depth = 0) (hf : s.interner.Faithful)
    (hc : Construct.ofStatement? s.nextKind = some c) :
    s.RestsWith (· = .fatal (.unrecognized s.nextKind s.nextLine)) := by
  obtain ⟨hnext, hpart, hnone⟩ := plain_of_ofStatement? (by rw [hc]; rfl)
  have hroom : Room (some nestingLimit) (s.depth + 3) := by
    rw [hd]
    exact room_nestingLimit.mono (by omega)
  exact of_mismatch hnext (Parser.topLevel_mismatch_of_kind hf hroom hpart hnone)

theorem mono {P Q : Outcome Node → Prop} (h : s.RestsWith P) (hPQ : ∀ o, P o → Q o) :
    s.RestsWith Q :=
  fun t ht => ⟨hPQ _ (h t ht).1, (h t ht).2⟩

end State.RestsWith

/-- Where a parse ended, further ones stay. -/
theorem Parser.restsWith_translationUnit {s t : State} {o : Outcome Node} (hd : s.depth = 0)
    (hf : s.interner.Faithful) (h : translationUnit (some nestingLimit) s = ⟨o, t⟩)
    (hdeep : ∀ line, o ≠ .fatal (.nestingTooDeep line)) : t.RestsWith (o.Settles t.nextKind) := by
  have hkept := (keeps_translationUnit (some nestingLimit)).of_eq h
  have hdt : t.depth = 0 := hkept.depth.trans hd
  have hroom : Room (some nestingLimit) (s.depth + 4) := by
    rw [hd]
    exact room_nestingLimit
  cases o with
  | matched n =>
    have hnext : t.nextKind = .eof := nextKind_of_unit_matched h
    refine (State.RestsWith.of_eof hnext).mono ?_
    rintro _ ⟨m, rfl, hm⟩
    exact .parsed hm
  | mismatch => exact absurd h translationUnit_ne_mismatch
  | fatal e =>
    cases translationUnit_locatedAt hd hf h with
    | unrecognized _ _ _ _ hnext =>
      obtain ⟨v, hv, hvt⟩ := topLevel_mismatch_of_unrecognized (some nestingLimit) _
        (s.openNode .translationUnit 4).2 _ _ t hf hroom (unitItems_of_unit_fatal h)
      refine (State.RestsWith.of_mismatch hnext (topLevel_mismatch_of_same hvt hv)).mono ?_
      rintro _ rfl
      exact .unrecognized _
    | @unsupported _ c hc _ _ =>
      rcases hc with hstatement | hdeclaration
      · refine (State.RestsWith.of_statement hdt (hkept.faithful hf) hstatement).mono ?_
        rintro _ rfl
        exact .statement _ hstatement
      · refine (State.RestsWith.of_refused hdt hdeclaration).mono ?_
        rintro _ rfl
        exact .declaration _ hdeclaration
    | nestingTooDeep _ _ _ => exact absurd rfl (hdeep _)

namespace State.Idle

variable {s : State}

/-- A parser that is called again stays where it is. Behind a whole unit it finds empty ones, and an
error is repeated, except that the keyword of a refused statement is not recognised then. -/
theorem units_settle (hs : s.Idle)
    (hdeep : ∀ line, (Parser.translationUnit (some nestingLimit) s).outcome ≠
      .fatal (.nestingTooDeep line)) (count : Nat) :
    let first := Parser.translationUnit (some nestingLimit) s
    ∀ r ∈ Session.units count first.final,
      first.outcome.Settles first.final.nextKind r.outcome ∧
        r.final.reader = first.final.reader := by
  intro first
  have hkept := Parser.keeps_translationUnit (some nestingLimit) s
  -- where the first unit ended, every further attempt ends as well
  have hrests : first.final.RestsWith (first.outcome.Settles first.final.nextKind) :=
    Parser.restsWith_translationUnit hs.depth_eq hs.faithful rfl hdeep
  exact hrests.units count _ (.refl (hkept.faithful hs.faithful))

/-- At an `if` in a function, which is refused there and not recognised from then on. -/
theorem units_settle_if :
    let tokens := [Token.plain .kwInt, .ident "f", .plain .lParen, .plain .rParen, .plain .lBrace,
      .newline, .plain .kwIf]
    let s : State := .start (Reader.ofTokens tokens .start) (.ofCapacity .packed 4096)
    let first := Parser.translationUnit (some nestingLimit) s
    s.Idle ∧ first.outcome = .fatal (.unsupported .ifStatement 2) ∧
      (∀ line, first.outcome ≠ .fatal (.nestingTooDeep line)) ∧
      (Session.units 2 first.final).length = 2 ∧
      ∀ r ∈ Session.units 2 first.final, r.outcome = .fatal (.unrecognized .kwIf 2) ∧
        r.final.reader = first.final.reader := by
  intro tokens s first
  let text : List Sign :=
    [.leaf ⟨.kwInt, none⟩, .leaf ⟨.ident, some "f"⟩, .mark .lParen, .mark .rParen, .mark .lBrace]
  let rest := [Token.plain .kwIf]
  have hhalts : TranslationUnit.Halts (some nestingLimit) (firstKind rest) 0 text
      (.refused .ifStatement) :=
    .intro (u := []) (by simp [TranslationUnit.Canonical]) (by simp) halts_if
  have hw : WrittenUpTo text s.pending rest := by
    refine ⟨tokens.take 5, ?_, by decide⟩
    repeat' constructor
  obtain ⟨e, t, ht, ⟨rfl, -⟩, hp⟩ :=
    Parser.translationUnit_of_halts (s := s) room_nestingLimit Interner.faithful_empty hhalts hw
  have hkept := (Parser.keeps_translationUnit (some nestingLimit)).of_eq ht
  have hline : t.nextLine = 2 := by
    rw [← State.lineOf_zero, hkept.lineOf (hp ▸ hw)]
    rfl
  have hnext : t.nextKind = .kwIf := State.nextKind_of_pending hp
  have hfirst : first = ⟨.fatal (.unsupported .ifStatement 2), t⟩ := by
    rw [← hline]
    exact ht
  have hidle : s.Idle := .start _ _
  have hdeep : ∀ line, first.outcome ≠ .fatal (.nestingTooDeep line) := by simp [hfirst]
  refine ⟨hidle, by rw [hfirst], hdeep, Session.length_units 2 _, fun r hr => ?_⟩
  obtain ⟨hsettles, hreader⟩ := hidle.units_settle hdeep 2 r hr
  change first.outcome.Settles first.final.nextKind r.outcome at hsettles
  rw [hfirst, hnext] at hsettles
  refine ⟨?_, hreader⟩
  generalize r.outcome = o at hsettles
  cases hsettles with
  | declaration _ hc => simp [Construct.ofDeclaration?] at hc
  | statement _ _ => rfl

end State.Idle

end MiniC
