import MiniC.Proofs.Halting.Report

namespace MiniC

open Syntax Grammar

/-- What may stand in place of some tokens without a change up to the first significant one behind
the first `i`; if there is none, one of kind `eof` may come, and anything behind it. -/
inductive Continuation (tokens : List Token) (i : Nat) : List Token → Prop where
  | ofToken {j : Nat} {x : Token} {tokens' : List Token} : i ≤ j → tokens[j]? = some x →
      x.isSignificant → (∀ m y, i ≤ m → m < j → tokens[m]? = some y → ¬y.isSignificant) →
      (∀ m ≤ j, tokens'[m]? = tokens[m]?) → Continuation tokens i tokens'
  | ofEnd {x : Token} {rest : List Token} : (∀ y ∈ tokens.drop i, ¬y.isSignificant) →
      x.kind = .eof → Continuation tokens i (tokens ++ x :: rest)

theorem Continuation.exists_append {tokens tokens' : List Token} {i : Nat}
    (h : Continuation tokens i tokens') :
    ∃ lines x more, tokens' = tokens.take i ++ (lines ++ x :: more) ∧
      (∀ y ∈ lines, ¬y.isSignificant) ∧ x.isSignificant ∧
      (tokens.drop i = lines ∧ x.kind = .eof ∨ ∃ other, tokens.drop i = lines ++ x :: other) := by
  cases h with
  | @ofToken j x _ hij hj hx hlines hsame =>
    obtain ⟨hlt, hget⟩ := List.getElem?_eq_some_iff.mp hj
    -- the newlines before the token at `j` belong to both texts
    have hsplit : tokens.drop i = (tokens.drop i).take (j - i) ++ x :: tokens.drop (j + 1) := by
      have hdrop : (tokens.drop i).drop (j - i) = x :: tokens.drop (j + 1) := by
        rw [List.drop_drop, Nat.add_sub_cancel' hij, List.drop_eq_getElem_cons hlt, hget]
      rw [← hdrop, List.take_append_drop]
    have htake : tokens'.take (j + 1) = tokens.take (j + 1) := by
      refine List.ext_getElem? fun m => ?_
      rw [List.getElem?_take, List.getElem?_take]
      split
      · exact hsame m (by omega)
      · rfl
    have hprefix :
        tokens.take (j + 1) = tokens.take i ++ ((tokens.drop i).take (j - i) ++ [x]) := by
      have hone : (tokens.drop i).take (j - i + 1) = (tokens.drop i).take (j - i) ++ [x] := by
        rw [List.take_add_one, List.getElem?_drop, Nat.add_sub_cancel' hij, hj]
        rfl
      rw [← hone, ← List.take_add]
      congr 1
      omega
    refine ⟨(tokens.drop i).take (j - i), x, tokens'.drop (j + 1), ?_, fun y hy => ?_, hx,
      .inr ⟨_, hsplit⟩⟩
    · have hall := List.take_append_drop (j + 1) tokens'
      rw [htake, hprefix] at hall
      simpa using hall.symm
    · obtain ⟨k, hk⟩ := List.mem_iff_getElem?.mp hy
      rw [List.getElem?_take] at hk
      split at hk
      · rw [List.getElem?_drop] at hk
        exact hlines (i + k) y (Nat.le_add_right i k) (by omega) hk
      · simp at hk
  | @ofEnd x rest hlines hx =>
    refine ⟨tokens.drop i, x, rest, ?_, hlines, ?_, .inl ⟨rfl, hx⟩⟩
    · rw [← List.append_assoc, List.take_append_drop]
    · simp [Token.isSignificant, TokenKind.isSignificant, hx]

section NextAlike

variable {ahead lines other : List Token} {x : Token}

theorem takeWhile_lines (hlines : ∀ y ∈ lines, ¬y.isSignificant) (hx : x.isSignificant)
    (h : ahead = lines ∨ ∃ other, ahead = lines ++ x :: other) :
    ahead.takeWhile (!·.isSignificant) = lines := by
  have hpos : ∀ y ∈ lines, (!y.isSignificant) = true := by simpa using hlines
  rcases h with rfl | ⟨other, rfl⟩
  · exact List.takeWhile_eq_self_iff.mpr hpos
  · rw [List.takeWhile_append_of_pos hpos, List.takeWhile_cons_of_neg (by simp [hx]),
      List.append_nil]

theorem filter_lines (hlines : ∀ y ∈ lines, ¬y.isSignificant) (hx : x.isSignificant) :
    (lines ++ x :: other).filter (·.isSignificant) = x :: other.filter (·.isSignificant) := by
  have hnone : lines.filter (·.isSignificant) = [] := List.filter_eq_nil_iff.mpr hlines
  rw [List.filter_append, hnone, List.nil_append, List.filter_cons_of_pos hx]

theorem next_kind_of_lines {r : Reader} (hlines : ∀ y ∈ lines, ¬y.isSignificant)
    (hx : x.isSignificant)
    (h : r.ahead = lines ∧ x.kind = .eof ∨ ∃ other, r.ahead = lines ++ x :: other) :
    r.next.kind = x.kind := by
  rw [Reader.next_eq]
  rcases h with ⟨hr, hk⟩ | ⟨other, hr⟩
  · have hnone : lines.filter (·.isSignificant) = [] := List.filter_eq_nil_iff.mpr hlines
    rw [hr, hnone, hk]
    rfl
  · rw [hr, filter_lines hlines hx]
    rfl

theorem firstKind_takeWhile (x : Token) (l : List Token) :
    firstKind ((x :: l).takeWhile (·.kind != .eof)) = x.kind := by
  by_cases hx : x.kind = .eof
  · rw [List.takeWhile_cons_of_neg (by simp [hx]), hx]
    rfl
  · rw [List.takeWhile_cons_of_pos (by simpa using hx)]
    rfl

end NextAlike

theorem Parser.translationUnit_fatal_again {s s' t : State} {e : ParseError}
    {passed lines more : List Token} {x : Token} (hd : s.depth = 0) (hd' : s'.depth = 0)
    (hf : s.interner.Faithful) (hf' : s'.interner.Faithful)
    (h : translationUnit (some nestingLimit) s = ⟨.fatal e, t⟩)
    (hne : ∀ found line, e ≠ .unrecognized found line)
    (hpassed : s.reader.Passes passed t.reader)
    (hread : s.pending = passed.filter (·.isSignificant) ++ t.pending)
    (hcursor : s.reader.cursor = s'.reader.cursor)
    (hahead : s'.reader.ahead = passed ++ (lines ++ x :: more))
    (hlines : t.reader.ahead.takeWhile (!·.isSignificant) = lines) (hx : x.isSignificant)
    (hnext : t.nextKind = x.kind) :
    ∃ t', translationUnit (some nestingLimit) s' = ⟨.fatal e, t'⟩ ∧
      t'.reader.cursor = t.reader.cursor := by
  have hnewlines : ∀ y ∈ lines, ¬y.isSignificant := by
    intro y hy
    rw [← hlines] at hy
    simpa using List.mem_takeWhile_imp hy
  obtain ⟨p, halt, hhalt, hw, rfl, -⟩ :=
    translationUnit_halts hf (by rw [hd]; exact room_nestingLimit) h hne
  -- the same text comes first, and then a token of the same kind
  let rest := (x :: more.filter (·.isSignificant)).takeWhile (·.kind != .eof)
  have hpending : s'.pending = passed.filter (·.isSignificant) ++ rest := by
    have hnoEof : ∀ y ∈ passed.filter (·.isSignificant), (y.kind != .eof) = true := by
      intro y hy
      have hy : y ∈ s.pending := hread ▸ List.mem_append_left _ hy
      exact List.mem_takeWhile_imp (p := fun z : Token => z.kind != .eof) hy
    show (s'.reader.ahead.filter (·.isSignificant)).takeWhile (·.kind != .eof) = _
    rw [hahead, List.filter_append, filter_lines hnewlines hx,
      List.takeWhile_append_of_pos hnoEof]
  have hw' : WrittenUpTo p s'.pending rest := by
    obtain ⟨v, hv, hsv⟩ := hw
    rw [hread] at hsv
    obtain rfl := List.append_cancel_right hsv
    exact ⟨_, hv, hpending⟩
  have hkind : firstKind rest = t.nextKind := by rw [hnext]; exact firstKind_takeWhile x _
  rw [hd, ← hkind, ← hd'] at hhalt
  obtain ⟨e', t', ht', ⟨rfl, -⟩, hpt'⟩ := translationUnit_of_halts
    (by rw [hd']; exact room_nestingLimit) hf' hhalt hw'
  -- it is written by the same tokens, since both readers stand right behind it
  obtain ⟨passed', hpassed', hread'⟩ :=
    ((keeps_translationUnit (some nestingLimit)).of_eq ht').reaches.passes
  have hsame : passed.filter (·.isSignificant) = passed'.filter (·.isSignificant) := by
    have hrest : passed.filter (·.isSignificant) ++ rest =
        passed'.filter (·.isSignificant) ++ rest := by
      rw [← hpending, ← hpt']
      exact hread'
    exact List.append_cancel_right hrest
  have hcount : passed.countP (·.isSignificant) = passed'.countP (·.isSignificant) := by
    rw [List.countP_eq_length_filter, List.countP_eq_length_filter, hsame]
  have hboth := hahead.symm.trans hpassed'.ahead
  obtain rfl := hpassed.ends.unique hpassed'.ends hboth hcount
  have hbehind : t'.reader.ahead.takeWhile (!·.isSignificant) = lines :=
    takeWhile_lines hnewlines hx (.inr ⟨more, (List.append_cancel_left hboth).symm⟩)
  have hline : t'.nextLine = t.nextLine := by
    rw [State.nextLine, State.nextLine, hpassed'.nextLine_eq, hpassed.nextLine_eq, hbehind, hlines,
      hcursor]
  exact ⟨t', by rw [ht', hline], (hpassed.cursor_eq hpassed' hcursor).symm⟩

/-- A parse that is given up at a refused construct, or for want of room, is given up with the same
error and cursor for any continuation of the tokens up to the next one. -/
theorem translationUnit_fatal_of_continuation {tokens tokens' : List Token} {cursor : Cursor}
    {arena arena' : Arena} {interner interner' : Interner} {log log' : List Event} {e : ParseError}
    {t : State} (hf : interner.Faithful) (hf' : interner'.Faithful)
    (h : Parser.translationUnit (some nestingLimit)
      ⟨Reader.ofTokens tokens cursor, 0, arena, interner, log⟩ = ⟨.fatal e, t⟩)
    (hne : ∀ found line, e ≠ .unrecognized found line)
    (hc : Continuation tokens t.reader.cursor.index tokens') :
    ∃ t', Parser.translationUnit (some nestingLimit)
        ⟨Reader.ofTokens tokens' cursor, 0, arena', interner', log'⟩ = ⟨.fatal e, t'⟩ ∧
      t'.reader.cursor = t.reader.cursor := by
  have hreaches := ((Parser.keeps_translationUnit (some nestingLimit)).of_eq h).reaches
  obtain ⟨passed, hpassed, hread⟩ := hreaches.passes
  have hahead : t.reader.ahead = tokens.drop t.reader.cursor.index :=
    congrArg Reader.ahead (hreaches.eq_ofTokens rfl)
  obtain ⟨lines, x, more, rfl, hlines, hx, hnext⟩ := hc.exists_append
  rw [← hahead] at hnext
  have hindex : t.reader.cursor.index = cursor.index + passed.length := hpassed.index
  have htokens : tokens.drop cursor.index = passed ++ t.reader.ahead := hpassed.ahead
  -- there is something to read, or no error would have been met
  have hlt : cursor.index < tokens.length := by
    by_contra hle
    refine Parser.nextKind_ne_eof_of_unit_fatal h (State.pending_eq_nil_iff.mp ?_)
    show programTokens (tokens.drop cursor.index) = []
    rw [List.drop_eq_nil_of_le (by omega)]
    rfl
  have hbefore : (tokens.take t.reader.cursor.index).drop cursor.index = passed := by
    rw [List.drop_take, htokens, hindex, Nat.add_sub_cancel_left, List.take_left]
  have hstart : (tokens.take t.reader.cursor.index ++ (lines ++ x :: more)).drop cursor.index =
      passed ++ (lines ++ x :: more) := by
    rw [List.drop_append_of_le_length (by rw [List.length_take]; omega), hbefore]
  exact Parser.translationUnit_fatal_again rfl rfl hf hf' h hne hpassed hread rfl hstart
    (takeWhile_lines hlines hx (hnext.imp And.left id)) hx (next_kind_of_lines hlines hx hnext)

/-- Whether the parentheses are closed does not matter any more. -/
theorem translationUnit_fatal_of_continuation_parentheses :
    let tokens := openTokens 252
    let arena := Arena.ofCapacity .packed 4096
    let more := [Token.eof, .plain .rParen]
    Interner.empty.Faithful ∧
      (∀ found line, ParseError.nestingTooDeep 2 ≠ .unrecognized found line) ∧
      ∃ t, Parser.translationUnit (some nestingLimit)
          ⟨Reader.ofTokens tokens .start, 0, arena, .empty, []⟩ =
            ⟨.fatal (.nestingTooDeep 2), t⟩ ∧
        Continuation tokens t.reader.cursor.index (tokens ++ more) ∧
        ∃ t', Parser.translationUnit (some nestingLimit)
            ⟨Reader.ofTokens (tokens ++ more) .start, 0, arena, .empty, []⟩ =
              ⟨.fatal (.nestingTooDeep 2), t'⟩ ∧
          t'.reader.cursor = t.reader.cursor := by
  intro tokens arena more
  obtain ⟨t, ht, hp⟩ := translationUnit_openTokens arena
  have hreaches := ((Parser.keeps_translationUnit (some nestingLimit)).of_eq ht).reaches
  have hnone : programTokens (tokens.drop t.reader.cursor.index) = [] := by
    rw [← hp]
    exact (congrArg Reader.pending (hreaches.eq_ofTokens rfl)).symm
  rw [programTokens_of_noEof fun x hx => openTokens_ne_eof 252 x (List.mem_of_mem_drop hx)] at hnone
  have hc : Continuation tokens t.reader.cursor.index (tokens ++ more) :=
    .ofEnd (List.filter_eq_nil_iff.mp hnone) rfl
  have hne : ∀ found line, ParseError.nestingTooDeep 2 ≠ .unrecognized found line := by simp
  exact ⟨Interner.faithful_empty, hne, t, ht, hc, translationUnit_fatal_of_continuation
    Interner.faithful_empty Interner.faithful_empty ht hne hc⟩

end MiniC
