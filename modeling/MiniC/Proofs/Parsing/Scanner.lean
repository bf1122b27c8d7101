import MiniC.Proofs.Parsing.Program
import MiniC.Proofs.Parsing.Limit
import MiniC.Proofs.Parsing.Position
import MiniC.Proofs.Syntax.Scan

namespace MiniC

open Syntax Grammar

namespace Reader

/-- Counting passes over newlines and does not pass the end of the input, as reading does. -/
theorem scan_filter (opened : Nat) (ts : List Token) :
    scan opened (((ts.filter (·.isSignificant)).takeWhile (·.kind != .eof)).map Token.kind) =
      scan opened (ts.map Token.kind) := by
  induction ts generalizing opened with
  | nil => rfl
  | cons t ts ih =>
    by_cases hline : t.kind = .newline
    · have hinsignificant : t.isSignificant = false := by
        simp [Token.isSignificant, TokenKind.isSignificant, hline]
      rw [List.filter_cons_of_neg (by simp [hinsignificant]), ih, List.map_cons, hline]
      rfl
    · have hsignificant : t.isSignificant := by
        simpa [Token.isSignificant, TokenKind.isSignificant] using hline
      rw [List.filter_cons_of_pos hsignificant]
      by_cases heof : t.kind = .eof
      · rw [List.takeWhile_cons_of_neg (by simp [heof]), List.map_cons, heof]
        rfl
      · rw [List.takeWhile_cons_of_pos (by simpa using heof)]
        exact scan_cons_congr ih

theorem scan_pending (r : Reader) (opened : Nat) :
    scan opened (r.pending.map Token.kind) = scan opened (r.ahead.map Token.kind) :=
  scan_filter opened r.ahead

theorem newline_notMem_pending (r : Reader) : .newline ∉ r.pending.map Token.kind := by
  intro h
  obtain ⟨t, ht, hk⟩ := List.mem_map.mp h
  have hs := (List.mem_filter.mp ((List.takeWhile_prefix _).subset ht)).2
  simp [Token.isSignificant, TokenKind.isSignificant, hk] at hs

end Reader

namespace Parser

variable {limit : Option Nat} {s t : State} {n : Node}

/-- What is read as an expression is what is counted, and its operands are what the tokens make. -/
theorem expression_scan (hf : s.interner.Faithful) (h : expression limit s = ⟨.matched n, t⟩) :
    ∃ passed xs, s.reader.Passes passed t.reader ∧
      scan 0 (s.reader.ahead.map Token.kind) =
        some (passed.filter (·.isSignificant)).length ∧
      Operands (passed.filter (·.isSignificant)) xs ∧ n.shape = ⟨.expression, none, xs⟩ := by
  obtain ⟨e, he, hw, hn, hend, -⟩ := expression_sound hf h
  have hreaches := ((keeps_expression limit).of_eq h).reaches
  obtain ⟨passed, hpassed, hpending⟩ := hreaches.passes
  obtain ⟨v, hv, hp⟩ := hw
  obtain rfl := List.append_cancel_right (hpending.symm.trans hp)
  obtain ⟨x, rest, hx, hk⟩ := hend
  refine ⟨passed, e.shapes, hpassed, ?_, he.operands hv, hn⟩
  have hx : t.reader.pending = x :: rest := hx
  have hscan := (hv.kinds ▸ he.isExpression).scan_append 0 (x.kind :: rest.map Token.kind)
  rw [← Reader.scan_pending, hpending, hx, List.map_append, List.map_cons, hscan, scan_end hk]
  simp

/-- What is counted is read, if there is no limit. -/
theorem expression_of_scan {i : Nat} (hf : s.interner.Faithful)
    (h : scan 0 (s.reader.ahead.map Token.kind) = some i) :
    ∃ n t, expression none s = ⟨.matched n, t⟩ := by
  rw [← Reader.scan_pending] at h
  obtain ⟨w, k, r, hw, -, he, hk⟩ := (scan_eq_some_iff s.reader.newline_notMem_pending).mp h
  obtain ⟨v, l, hv, rfl, hl⟩ := List.map_eq_append_iff.mp hw
  obtain ⟨x, rest, rfl, rfl, -⟩ := List.map_eq_cons_iff.mp hl
  obtain ⟨e, hcan, hwritten⟩ := exists_expression he v rfl
  have hroom : Room none (s.depth + 1) := room_none _
  obtain ⟨n, t, ht, -⟩ := expression_complete (s := s) hcan hroom (e.fits_none _) hf
    ⟨v, hwritten, hv⟩ ⟨x, rest, rfl, hk⟩
  exact ⟨n, t, ht⟩

/-- An expression is given up only for the limit. -/
theorem expression_eq_of_ne {limit : Nat}
    (hno : ∀ line, (expression (some limit) s).outcome ≠ .fatal (.nestingTooDeep line)) :
    expression (some limit) s = expression none s := by
  by_cases hd : s.depth ≤ limit
  · exact (limited_of_couple hd (couple_expression (limitCoupling limit s.log))).eq_of_ne hno
  · have hfull : ¬Room (some limit) (s.depth + 1) := fun hr => by
      have := hr limit rfl
      omega
    rw [expression_eq, tryRule_of_full hfull] at hno
    exact absurd rfl (hno s.nextLine)

/-- Unless it is given up for the limit, the parse of an expression yields a node exactly where
counting finds one, with the tokens that were counted read into its children. -/
theorem expression_agrees_with_scan (tokens : List Token) (cursor : Cursor) (depth : Nat)
    (arena : Arena) (interner : Interner) (log : List Event) (hf : interner.Faithful)
    (hno : ∀ line, (expression (some nestingLimit)
      ⟨Reader.ofTokens tokens cursor, depth, arena, interner, log⟩).outcome ≠
        .fatal (.nestingTooDeep line)) :
    let r := expression (some nestingLimit)
      ⟨Reader.ofTokens tokens cursor, depth, arena, interner, log⟩
    let found := scan 0 ((tokens.drop cursor.index).map Token.kind)
    ((∃ n, r.outcome = .matched n) ↔ found.isSome) ∧ (r.outcome = .mismatch ↔ found = none) ∧
      ∀ n, r.outcome = .matched n →
        ∃ passed xs, (Reader.ofTokens tokens cursor).Passes passed r.final.reader ∧
          found = some (passed.filter (·.isSignificant)).length ∧
          Operands (passed.filter (·.isSignificant)) xs ∧ n.shape = ⟨.expression, none, xs⟩ := by
  intro r found
  let s : State := ⟨Reader.ofTokens tokens cursor, depth, arena, interner, log⟩
  -- a run that does not reach the limit is that of the parser without one
  have hr : r = expression none s := expression_eq_of_ne hno
  have hmatched (n : Node) (hn : r.outcome = .matched n) :
      expression (some nestingLimit) s = ⟨.matched n, r.final⟩ := by rw [← hn]
  have hfound : found.isSome → ∃ n, r.outcome = .matched n := by
    intro h
    obtain ⟨i, hi⟩ := Option.isSome_iff_exists.mp h
    obtain ⟨n, t, ht⟩ := expression_of_scan (s := s) hf hi
    exact ⟨n, by rw [hr, ht]⟩
  have hnode : (∃ n, r.outcome = .matched n) → found.isSome := by
    rintro ⟨n, hn⟩
    obtain ⟨passed, xs, -, hscan, -⟩ := expression_scan hf (hmatched n hn)
    exact Option.isSome_iff_exists.mpr ⟨_, hscan⟩
  refine ⟨⟨hnode, hfound⟩, ⟨fun hm => ?_, fun hnone => ?_⟩, fun n hn => ?_⟩
  · rw [Option.eq_none_iff_forall_ne_some]
    intro i hi
    obtain ⟨n, hn⟩ := hfound (Option.isSome_iff_exists.mpr ⟨i, hi⟩)
    simp [hm] at hn
  · cases ho : r.outcome with
    | matched n => exact absurd (hnode ⟨n, ho⟩) (by simp [hnone])
    | mismatch => rfl
    | fatal e =>
      have hfatal : expression none s = ⟨.fatal e, r.final⟩ := by rw [← hr, ← ho]
      exact absurd hfatal (mild_expression (k := 0) s (room_none _) e _)
  · exact expression_scan hf (hmatched n hn)

/-- A cast, and a group that begins as a type. -/
theorem expression_agrees_with_scan_cast :
    let tokens := [Token.plain .lParen, .plain .kwInt, .newline, .plain .rParen, .plain .lParen,
      .plain .kwInt, .ident "x", .plain .rParen, .newline, .plain .semicolon]
    let r := expression (some nestingLimit)
      ⟨Reader.ofTokens tokens .start, 3, .ofCapacity .packed 4096, .empty, []⟩
    Interner.empty.Faithful ∧ (∀ line, r.outcome ≠ .fatal (.nestingTooDeep line)) ∧
      scan 0 (tokens.map Token.kind) = some 7 ∧
      ∃ n passed xs, r.outcome = .matched n ∧
        (Reader.ofTokens tokens .start).Passes passed r.final.reader ∧
        some 7 = some (passed.filter (·.isSignificant)).length ∧
        Operands (passed.filter (·.isSignificant)) xs ∧ n.shape = ⟨.expression, none, xs⟩ := by
  intro tokens r
  let e : Expression := .cast intType
    (.group (.leaf ⟨.kwInt, none⟩ (.leaf ⟨.ident, some "x"⟩ .nil)) .nil)
  have hcanonical : e.Canonical := by
    refine ⟨fun ls hls hty => ?_, ⟨by decide, by decide, trivial⟩, trivial⟩
    obtain rfl : ls = [⟨.kwInt, none⟩, ⟨.ident, some "x"⟩] := by
      rcases ls with - | ⟨a, - | ⟨b, - | ⟨c, ls⟩⟩⟩ <;> simp_all [Expression.ofLeaves]
    exact absurd (hty.isTypePart_of_mem (k := .ident) (by simp)) (by decide)
  have hwritten : Written e.print (tokens.filter (·.isSignificant)).dropLast := by
    repeat' constructor
  have hupto : WrittenUpTo e.print (programTokens tokens) [.plain .semicolon] := ⟨_, hwritten, rfl⟩
  have hroom (k : Nat) (hk : k ≤ nestingLimit) : Room (some nestingLimit) k :=
    room_nestingLimit_iff.mpr hk
  have hfits : e.Fits (some nestingLimit) 4 :=
    ⟨hroom 6 (by decide), hroom 6 (by decide), trivial, trivial⟩
  obtain ⟨n, t, ht, -⟩ := expression_complete
    (s := ⟨Reader.ofTokens tokens .start, 3, .ofCapacity .packed 4096, .empty, []⟩) hcanonical
    (hroom 4 (by decide)) hfits Interner.faithful_empty hupto ⟨_, _, rfl, .inl rfl⟩
  have hno : ∀ line, r.outcome ≠ .fatal (.nestingTooDeep line) := by
    simp [show r.outcome = .matched n from congrArg Result.outcome ht]
  have hn : r.outcome = .matched n := congrArg Result.outcome ht
  obtain ⟨-, -, hnode⟩ := expression_agrees_with_scan tokens .start 3 (.ofCapacity .packed 4096)
    .empty [] Interner.faithful_empty hno
  obtain ⟨passed, xs, hpassed, hscan, hxs, hshape⟩ := hnode n hn
  exact ⟨Interner.faithful_empty, hno, rfl, n, passed, xs, hn, hpassed, hscan, hxs, hshape⟩

end Parser

end MiniC
