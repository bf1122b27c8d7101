import MiniC.Proofs.Parsing.Capacity
import MiniC.Proofs.Parsing.Position
import MiniC.Proofs.Parsing.Tandem
import MiniC.Proofs.Syntax.Shapes

namespace MiniC

open Syntax

def LinesDown (count l l' : Nat) : Prop := l' = l + count

theorem programTokens_append {ts : List Token} (h : ∀ t ∈ ts, t.kind ≠ .eof) (us : List Token) :
    programTokens (ts ++ us) = programTokens ts ++ programTokens us := by
  rw [programTokens_of_noEof h]
  unfold programTokens
  rw [List.filter_append]
  refine List.takeWhile_append_of_pos fun t ht => ?_
  simpa using h t (List.mem_filter.mp ht).1

/-- As many tokens of the program are read as its text has signs. -/
theorem length_print_eq {u : TranslationUnit} {tokens : List Token}
    (hts : ∀ t ∈ tokens, t.kind ≠ .eof) (hw : Written u.print (programTokens tokens)) :
    u.print.length = tokens.countP (·.isSignificant) := by
  rw [programTokens_of_noEof hts] at hw
  rw [List.Forall₂.length_eq hw, List.countP_eq_length_filter]

namespace Parser

/-- The reader of a fresh parser, and the state in which the root is open. -/
abbrev opened (tokens : List Token) (arena : Arena) : State :=
  ((State.start (Reader.ofTokens tokens .start) arena).openNode .translationUnit 4).2

theorem parse_reads {tokens : List Token} {arena : Arena} {n : Node}
    (h : (parse tokens arena).outcome = .matched n) :
    ∃ u : TranslationUnit, u.Canonical ∧ Written u.print (programTokens tokens) ∧
      (∀ i ∈ u, i.Fits (some nestingLimit) 0) ∧ n.children.map Node.shape = u.map Item.shape ∧
      n.children.flatMap Node.lines =
        (rowFirsts Item.print Item.firsts u).map fun k => 1 + newlinesBefore tokens k := by
  let s : State := .start (Reader.ofTokens tokens .start) arena
  obtain ⟨u, hu, hw, hn, hl, hfits⟩ := translationUnit_reads (s := s)
    (t := (parse tokens arena).final) Interner.faithful_empty (by rw [← h]; rfl)
  rw [Node.shape_eq] at hn
  rw [Node.lines_eq, TranslationUnit.firsts, List.map_cons] at hl
  exact ⟨u, hu, hw, hfits, (Shape.mk.inj hn).2.2, (List.cons.inj hl).2⟩

theorem regular_children {tokens : List Token} {arena : Arena} {n : Node}
    (h : (parse tokens arena).outcome = .matched n) : ∀ c ∈ n.children, c.Regular := by
  have hparse : parse tokens arena = ⟨.matched n, (parse tokens arena).final⟩ := by rw [← h]
  obtain ⟨-, hchildren⟩ := regular_of_translationUnit hparse
  exact hchildren

theorem unitItems_of_parse_fatal {tokens : List Token} {arena : Arena} {e : ParseError}
    (h : (parse tokens arena).outcome = .fatal e) :
    ∃ t, unitItems (some nestingLimit) (.empty .translationUnit (opened tokens arena).nextLine 4)
      (opened tokens arena) = ⟨.fatal e, t⟩ := by
  have hparse : translationUnit (some nestingLimit) (.start (Reader.ofTokens tokens .start) arena) =
      ⟨.fatal e, (parse tokens arena).final⟩ := by rw [← h]; rfl
  have hitems := unitItems_of_unit_fatal hparse
  exact ⟨_, hitems⟩

theorem parse_fatal_of_unitItems {tokens : List Token} {arena : Arena} {e : ParseError} {t : State}
    (h : unitItems (some nestingLimit) (.empty .translationUnit (opened tokens arena).nextLine 4)
      (opened tokens arena) = ⟨.fatal e, t⟩) :
    (parse tokens arena).outcome = .fatal e := by
  have hparse : parse tokens arena = ⟨.fatal e, t⟩ := (bind_of_matched rfl).trans (bind_of_fatal h)
  rw [hparse]

end Parser

/-- Two readers of the same tokens, the second of which has them `count` lines further down. What
either has read before does not matter. -/
def Tandem.down (count : Nat) : Tandem where
  readers r t := r.ahead.filter (·.isSignificant) = t.ahead.filter (·.isSignificant) ∧
    ∀ k, LinesDown count (r.lineOf k) (t.lineOf k)
  line := anyLines
  errorLine := LinesDown count
  next := by
    rintro r t ⟨hahead, -⟩
    rw [Reader.next_eq, Reader.next_eq, hahead]
  rest := by
    rintro r t ⟨hahead, hlines⟩ -
    refine ⟨?_, fun k => ?_⟩
    · rw [Reader.filter_ahead_rest, Reader.filter_ahead_rest, hahead]
    · rw [Reader.lineOf_rest, Reader.lineOf_rest]
      exact hlines (k + 1)
  lastLine _ := trivial
  nextLine _ := trivial
  errorNextLine := by
    rintro r t ⟨-, hlines⟩
    rw [← Reader.lineOf_zero, ← Reader.lineOf_zero]
    exact hlines 0

section Append

variable {ts us : List Token} {u v : TranslationUnit}

theorem written_append (hts : ∀ t ∈ ts, t.kind ≠ .eof) (hu : Written u.print (programTokens ts))
    (hv : Written v.print (programTokens us)) :
    Written (TranslationUnit.print (u ++ v)) (programTokens (ts ++ us)) := by
  rw [programTokens_append hts, TranslationUnit.print, List.flatMap_append]
  exact hu.append hv

theorem lines_append (hts : ∀ t ∈ ts, t.kind ≠ .eof) (hu : Written u.print (programTokens ts)) :
    (rowFirsts Item.print Item.firsts (u ++ v)).map (fun k => 1 + newlinesBefore (ts ++ us) k) =
      (rowFirsts Item.print Item.firsts u).map (fun k => 1 + newlinesBefore ts k) ++
        (rowFirsts Item.print Item.firsts v).map
          (fun k => 1 + newlinesBefore us k + ts.countP (!·.isSignificant)) := by
  have hlength : (u.flatMap Item.print).length = ts.countP (·.isSignificant) :=
    length_print_eq hts hu
  rw [rowFirsts_append, List.map_append, hlength, behind, List.map_map]
  congr 1
  · refine List.map_congr_left fun k hk => ?_
    have hlt := rowFirsts_lt (fun i _ => i.firsts_lt) k hk
    rw [hlength] at hlt
    rw [newlinesBefore_append_left us hlt]
  · refine List.map_congr_left fun k _ => ?_
    simp only [Function.comp_apply, newlinesBefore_append_right]
    omega

/-- Behind the items of the first text the second one is read as by a fresh parser. -/
theorem exists_tandem (us : List Token) (hu : u.Canonical) (hfits : ∀ i ∈ u, i.Fits (some nestingLimit) 0)
    (hts : ∀ t ∈ ts, t.kind ≠ .eof) (hw : Written u.print (programTokens ts)) (d : Draft)
    (a b : Arena) :
    ∃ d' t, Parser.unitItems (some nestingLimit) d (Parser.opened (ts ++ us) a) =
        Parser.unitItems (some nestingLimit) d' t ∧
      (Tandem.down (ts.countP (!·.isSignificant))).States (Parser.opened us b) t := by
  let s := Parser.opened (ts ++ us) a
  have hprogram : s.pending = programTokens ts ++ programTokens us := programTokens_append hts us
  have hupTo : WrittenUpTo u.print s.pending (programTokens us) := ⟨_, hw, hprogram⟩
  obtain ⟨d', t, ht, hk, hp, -⟩ := Parser.unitItems_read hu d (s := s) room_nestingLimit hfits
    Interner.faithful_empty hupTo
  refine ⟨d', t, ht, ⟨?_, fun k => ?_⟩, hk.depth.symm, Interner.faithful_empty,
    hk.faithful Interner.faithful_empty⟩
  · obtain ⟨passed, hpassed, hpending⟩ := hk.reaches.passes
    have hread : programTokens ts = passed.filter (·.isSignificant) := by
      have hboth : programTokens ts ++ programTokens us =
          passed.filter (·.isSignificant) ++ programTokens us := by
        rw [← hprogram, ← hp]
        exact hpending
      exact List.append_cancel_right hboth
    have hall := congrArg (List.filter (·.isSignificant)) hpassed.ahead
    rw [List.filter_append, ← hread, programTokens_of_noEof hts] at hall
    have hboth : ts.filter (·.isSignificant) ++ us.filter (·.isSignificant) =
        ts.filter (·.isSignificant) ++ t.reader.ahead.filter (·.isSignificant) := by
      rw [← List.filter_append]
      exact hall
    exact List.append_cancel_left hboth
  · have hline : t.lineOf k = 1 + newlinesBefore (ts ++ us) (u.print.length + k) :=
      hk.lineOf (by rwa [hp]) k
    rw [length_print_eq hts hw, newlinesBefore_append_right] at hline
    have hfresh : (Parser.opened us b).lineOf k = 1 + newlinesBefore us k := rfl
    unfold LinesDown
    rw [show t.reader.lineOf k = _ from hline, show Reader.lineOf _ k = _ from hfresh]
    omega

end Append

/-- If a text without tokens of kind `eof` is accepted, then another one behind it is parsed as it
is by itself, as many lines further down as the first one has newlines. -/
theorem parse_append {ts us : List Token} {n : Node} (a b c : Arena)
    (hts : ∀ t ∈ ts, t.kind ≠ .eof) (hn : (parse ts a).outcome = .matched n) :
    (∀ m, (parse us b).outcome = .matched m →
      ∃ root ns ms, (parse (ts ++ us) c).outcome = .matched root ∧ root.children = ns ++ ms ∧
        List.Forall₂ (Node.Like Eq (SameText True)) n.children ns ∧
        List.Forall₂ (Node.Like (LinesDown (ts.countP (!·.isSignificant))) (SameText True))
          m.children ms) ∧
    ∀ e, (parse us b).outcome = .fatal e →
      ∃ e', (parse (ts ++ us) c).outcome = .fatal e' ∧
        e.Like (LinesDown (ts.countP (!·.isSignificant))) e' := by
  obtain ⟨u, hu, hwu, hfitsu, hshapen, hlinen⟩ := Parser.parse_reads hn
  refine ⟨fun m hm => ?_, fun e he => ?_⟩
  · obtain ⟨v, hv, hwv, hfitsv, hshapem, hlinem⟩ := Parser.parse_reads hm
    -- the text of both units is the text of one, so the parser reads it
    have hcan : TranslationUnit.Canonical (u ++ v) := List.forall_mem_append.mpr ⟨hu, hv⟩
    have hw : Written (TranslationUnit.print (u ++ v)) (programTokens (ts ++ us)) :=
      written_append hts hwu hwv
    obtain ⟨root, hroot, hshape⟩ := Parser.translationUnit_complete hcan
      (s := .start (Reader.ofTokens (ts ++ us) .start) c) room_nestingLimit
      (List.forall_mem_append.mpr ⟨hfitsu, hfitsv⟩) Interner.faithful_empty hw
    obtain ⟨w, -, -, -, hshapew, hlinew⟩ := Parser.parse_reads hroot
    rw [Node.shape_eq] at hshape
    have hshapes : root.children.map Node.shape = (u ++ v).map Item.shape :=
      (Shape.mk.inj hshape).2.2
    -- what it read is determined by the shapes of the items
    obtain rfl : w = u ++ v :=
      List.map_injective_iff.mpr Item.shape_injective (hshapew.symm.trans hshapes)
    obtain ⟨ns, ms, hchildren, hns, hms⟩ :=
      List.map_eq_append_iff.mp (hshapes.trans List.map_append)
    have hregular := Parser.regular_children hroot
    rw [hchildren] at hregular hlinew
    rw [List.flatMap_append, lines_append hts hwu, ← hlinen] at hlinew
    have hlength : (ns.flatMap Node.lines).length = (n.children.flatMap Node.lines).length :=
      Node.length_flatMap_lines (hns.trans hshapen.symm)
    obtain ⟨hlinens, hlinems⟩ := List.append_inj hlinew hlength
    refine ⟨root, ns, ms, hroot, hchildren, ?_, ?_⟩
    · refine Node.forall₂_like_of_shape (hshapen.trans hns.symm) ?_ (Parser.regular_children hn)
        (List.forall_mem_append.mp hregular).1
      rw [hlinens]
      exact List.forall₂_same.mpr fun _ _ => rfl
    · refine Node.forall₂_like_of_shape (hshapem.trans hms.symm) ?_ (Parser.regular_children hm)
        (List.forall_mem_append.mp hregular).2
      rw [hlinems, hlinem, List.forall₂_map_left_iff, List.forall₂_map_right_iff]
      exact List.forall₂_same.mpr fun _ _ => rfl
  · obtain ⟨t, ht⟩ := Parser.unitItems_of_parse_fatal he
    let root := Draft.empty .translationUnit (Parser.opened (ts ++ us) c).nextLine 4
    -- the first text is read in the same way, and from there on both runs fail alike
    obtain ⟨d', t', hread, hstates⟩ := exists_tandem us hu hfitsu hts hwu root c b
    obtain ⟨e', v, hfatal, hlike⟩ := (Tandem.down _).unitItems_fatal _ _ d' t' hstates ht
    exact ⟨e', Parser.parse_fatal_of_unitItems (hread.trans hfatal), hlike⟩

/-- The sample behind itself, and before a refused declaration. -/
theorem parse_append_sample :
    let arena := Arena.ofCapacity .packed 4096
    (∀ t ∈ sampleTokens, t.kind ≠ .eof) ∧ ∃ n, (parse sampleTokens arena).outcome = .matched n ∧
      (∃ root ns ms, (parse (sampleTokens ++ sampleTokens) arena).outcome = .matched root ∧
        root.children = ns ++ ms ∧
        List.Forall₂ (Node.Like Eq (SameText True)) n.children ns ∧
        List.Forall₂ (Node.Like (LinesDown 2) (SameText True)) n.children ms) ∧
      (parse (sampleTokens ++ [.newline, .plain .kwStruct]) arena).outcome =
        .fatal (.unsupported .structDecl 4) := by
  intro arena
  have hts : ∀ t ∈ sampleTokens, t.kind ≠ .eof := by decide
  have hw := written_sample
  rw [← sampleUnit_canonical.programTokens_eq hw] at hw
  obtain ⟨n, hn, -⟩ := Parser.translationUnit_complete sampleUnit_canonical
    (s := .start (Reader.ofTokens sampleTokens .start) arena) room_nestingLimit
    (fun i hi => (sampleUnit_nestsWithin i hi).fits) Interner.faithful_empty hw
  have hrefused : (parse [.newline, .plain .kwStruct] arena).outcome =
      .fatal (.unsupported .structDecl 2) := by
    unfold parse Parser.translationUnit
    simp only [Parser.bind_apply, Parser.openNode, Parser.step, Result.andThen_matched]
    rw [Parser.unitItems_eq]
    rfl
  obtain ⟨htwice, -⟩ := parse_append arena arena arena hts hn
  obtain ⟨-, hfatal⟩ := parse_append arena arena arena hts hn
  obtain ⟨e, he, hlike⟩ := hfatal _ hrefused
  cases hlike with
  | unsupported _ hline =>
    obtain rfl := hline
    exact ⟨hts, n, hn, htwice n hn, he⟩

end MiniC
