import MiniC.Proofs.Halting.Complete

namespace MiniC

open Syntax Grammar

namespace Parser

/-- Without a limit, what is not recognised comes right behind the longest row of items. -/
theorem unitItems_unrecognized (d : Draft) (s : State) :
    ∀ (found : TokenKind) (line : Nat) (t : State), s.interner.Faithful →
      unitItems none d s = ⟨.fatal (.unrecognized found line), t⟩ →
      ∃ u : TranslationUnit, u.Canonical ∧ WrittenUpTo u.print s.pending t.pending ∧
        IsLongestStart (Repeated IsItem) (u.print.map Sign.kind) s.kinds ∧
        found = t.nextKind ∧ line = t.nextLine ∧ found ≠ .eof := by
  fun_induction unitItems none d s with
  | case1 => simp
  | case2 d s _ item v hv pushed ih =>
    intro found line t hf h
    have hk := ((keeps_topLevel none).of_eq hv).trans (State.kept_append v d item)
    obtain ⟨i, hi, hiw, -⟩ := topLevel_sound hf hv
    obtain ⟨u, hu, hw, hlong, hfound⟩ := ih found line t (hk.faithful hf) h
    have hkinds : s.kinds = i.print.map Sign.kind ++ v.kinds := State.kinds_of_written hiw
    refine ⟨i :: u, ?_, ?_, ?_, hfound⟩
    · simpa [TranslationUnit.Canonical] using ⟨hi, hu⟩
    · exact hiw.trans hw
    · have hall := isLongestStart_append hf hi.isItem hkinds hlong
      rwa [← List.map_append] at hall
  | case3 d s hne v hv =>
    intro found line t hf h
    obtain ⟨he, rfl⟩ := Result.fatal_inj h
    obtain ⟨rfl, rfl⟩ := ParseError.unrecognized.inj he
    have hp : v.pending = s.pending := (topLevel_eq_mismatch hv).1
    refine ⟨[], by simp [TranslationUnit.Canonical], ?_, isLongestStart_nil hf (by simp [hv]), rfl,
      rfl, ?_⟩
    · exact hp ▸ .nil _
    · rwa [State.nextKind_eq_of_pending hp]
  | case4 d s _ e v hv =>
    intro found line t hf h
    obtain ⟨rfl, -⟩ := Result.fatal_inj h
    obtain ⟨c, line', hc, -⟩ := topLevel_eq_fatal hf hv
    simp at hc

end Parser

/-- What an error says about the state in which a parse was given up that began at `start`: which
items were accepted, what comes next, and how many rules are in progress. -/
inductive ParseError.LocatedAt (start : Reader) (stop : State) : ParseError → Prop where
  | unrecognized {u : TranslationUnit} : u.Canonical →
      IsLongestStart (Repeated IsItem) (u.print.map Sign.kind) (start.pending.map Token.kind) →
      start.PassesText u.print stop.reader → (u = [] → stop.reader = start) →
      stop.nextKind ≠ .eof → LocatedAt start stop (.unrecognized stop.nextKind stop.nextLine)
  | unsupported {p : List Sign} {c : Construct} :
      Construct.ofStatement? stop.nextKind = some c ∨
        Construct.ofDeclaration? stop.nextKind = some c →
      TranslationUnit.Halts (some nestingLimit) stop.nextKind 0 p (.refused c) →
      start.PassesText p stop.reader → LocatedAt start stop (.unsupported c stop.nextLine)
  | nestingTooDeep {p : List Sign} {rule : Rule} :
      TranslationUnit.Halts (some nestingLimit) stop.nextKind 0 p (.tooDeep rule) →
      start.PassesText p stop.reader →
      stop.log.head? = some (.limitReached rule stop.nextLine) →
      LocatedAt start stop (.nestingTooDeep stop.nextLine)

theorem Parser.translationUnit_locatedAt {s t : State} {e : ParseError} (hd : s.depth = 0)
    (hf : s.interner.Faithful)
    (h : translationUnit (some nestingLimit) s = ⟨.fatal e, t⟩) : e.LocatedAt s.reader t := by
  have hk := (keeps_translationUnit (some nestingLimit)).of_eq h
  have hroom : Room (some nestingLimit) (s.depth + 4) := by
    rw [hd]
    exact room_nestingLimit
  by_cases he : ∃ found line, e = .unrecognized found line
  · obtain ⟨found, line, rfl⟩ := he
    -- where the limit does not matter, the longest row of items ends where the parse does
    have hfree : translationUnit none s = ⟨.fatal (.unrecognized found line), t⟩ := by
      have hle : s.depth ≤ nestingLimit := by omega
      have hlim := translationUnit_limited hle
      rw [← hlim.eq_of_ne (by simp [h]), h]
    obtain ⟨u, hu, hw, hlong, rfl, rfl, hne⟩ := unitItems_unrecognized _
      (s.openNode .translationUnit 4).2 _ _ _ hf (unitItems_of_unit_fatal hfree)
    refine .unrecognized hu hlong (hk.reaches.passesText hw) ?_ hne
    rintro rfl
    exact hk.reaches.eq_of_pending hw.eq_of_nil.symm
  · obtain ⟨p, halt, hhalt, hw, rfl, hlog⟩ :=
      translationUnit_halts hf hroom h fun found line hfound => he ⟨found, line, hfound⟩
    rw [hd] at hhalt
    have hpasses := hk.reaches.passesText hw
    cases halt with
    | refused c => exact .unsupported hhalt.keyword_of_refused hhalt hpasses
    | tooDeep rule => exact .nestingTooDeep hhalt hpasses hlog

end MiniC
