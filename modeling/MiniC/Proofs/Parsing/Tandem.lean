import MiniC.Proofs.Parsing.Layout

namespace MiniC

/-- How two readers of the same tokens keep together, and what that means for the lines of nodes and
of errors. -/
structure Tandem where
  readers : Reader → Reader → Prop
  line : Nat → Nat → Prop
  errorLine : Nat → Nat → Prop
  next {r t : Reader} : readers r t → r.next = t.next
  rest {r t : Reader} : readers r t → r.next.kind ≠ .eof → readers r.rest t.rest
  lastLine {r t : Reader} : readers r t → line r.line t.line
  nextLine {r t : Reader} : readers r t → line r.nextLine t.nextLine
  errorNextLine {r t : Reader} : readers r t → errorLine r.nextLine t.nextLine

namespace Tandem

variable {T : Tandem} {s t : State}

/-- The readers keep together and as many rules are in progress. Nothing is said of the arenas and
the logs, nor of which texts are stored. -/
structure States (T : Tandem) (s t : State) : Prop where
  readers : T.readers s.reader t.reader
  depth : s.depth = t.depth
  faithful : s.interner.Faithful
  faithful' : t.interner.Faithful

theorem States.nextKind (h : T.States s t) : s.nextKind = t.nextKind :=
  congrArg Token.kind (T.next h.readers)

theorem States.isFull (h : T.States s t) (limit : Nat) :
    s.isFull (some limit) = t.isFull (some limit) := by
  unfold State.isFull
  rw [h.depth]

theorem States.skip (h : T.States s t) (hs : s.nextKind ≠ .eof) : T.States s.skip t.skip :=
  ⟨T.rest h.readers hs, h.depth, h.faithful, h.faithful'⟩

theorem States.internToken (h : T.States s t) (token : Token) :
    SameText True (s.internToken token).1 (t.internToken token).1 ∧
      T.States (s.internToken token).2 (t.internToken token).2 := by
  have hs := s.kept_internToken token
  have ht := t.kept_internToken token
  refine ⟨fun _ => ?_, ?_, ?_, hs.faithful h.faithful, ht.faithful h.faithful'⟩
  · rw [State.internToken_text h.faithful, State.internToken_text h.faithful']
  · rw [State.reader_internToken, State.reader_internToken]
    exact h.readers
  · rw [hs.depth, ht.depth, h.depth]

def coupling (T : Tandem) : Coupling where
  limit := some nestingLimit
  limit' := some nestingLimit
  line := T.line
  text := SameText True
  state := T.States
  error := ParseError.Like T.errorLine
  lost _ _ _ := False
  nextKind h := h.nextKind
  nextLine h := T.nextLine h.readers
  lastLine h := T.lastLine h.readers
  noText _ := rfl
  unsupported construct h := .unsupported construct (T.errorNextLine h.readers)
  unrecognized {s t} h := by
    rw [h.nextKind]
    exact .unrecognized _ (T.errorNextLine h.readers)
  nestingTooDeep h _ _ := .nestingTooDeep (T.errorNextLine h.readers)
  record h _ := ⟨h.readers, h.depth, h.faithful, h.faithful'⟩
  skip h hs := h.skip hs
  intern {s t} h hs := by
    rw [← T.next h.readers]
    exact (h.skip hs).internToken s.reader.next
  reserve h _ := ⟨h.readers, h.depth, h.faithful, h.faithful'⟩
  enter rule h hs :=
    ⟨(h.isFull nestingLimit).symm.trans hs, h.readers, congrArg (· + 1) h.depth, h.faithful,
      h.faithful'⟩
  lose rule h hs ht _ := by
    have hfull := h.isFull nestingLimit
    rw [hs, ht] at hfull
    exact Bool.noConfusion hfull
  back h k := ⟨h.readers, k.depth, k.faithful, k.faithful'⟩
  leave h := ⟨h.readers, congrArg (· - 1) h.depth, h.faithful, h.faithful'⟩
  lost_mono h _ := h

theorem topLevel (h : T.States s t) :
    (Parser.topLevel (some nestingLimit) s).Coupled T.coupling (Parser.Nodes T.coupling)
      (Parser.topLevel (some nestingLimit) t) := Parser.couple_topLevel T.coupling s t h

/-- The two parses are given up at the same item for the same reason, whatever they have read. -/
theorem unitItems_fatal (T : Tandem) (d : Draft) (s : State) :
    ∀ (d' : Draft) (t : State) {e : ParseError} {u : State}, T.States s t →
      Parser.unitItems (some nestingLimit) d s = ⟨.fatal e, u⟩ →
      ∃ e' u', Parser.unitItems (some nestingLimit) d' t = ⟨.fatal e', u'⟩ ∧
        e.Like T.errorLine e' := by
  -- along the items of the first run: the second one takes the same turn
  fun_induction Parser.unitItems (some nestingLimit) d s with
  | case1 => simp
  | case2 d s hs item v hv pushed ih =>
    intro d' t e u h he
    have htop := topLevel h
    rw [hv] at htop
    rcases ht : Parser.topLevel (some nestingLimit) t with ⟨o, v'⟩
    rw [ht] at htop
    cases htop with
    | matched hn hstates =>
      have hnext : t.nextKind ≠ .eof := h.nextKind ▸ hs
      rw [Parser.unitItems_of_item d' hnext ht]
      exact ih _ _ ⟨hstates.readers, hstates.depth, hstates.faithful, hstates.faithful'⟩ he
  | case3 d s hs v hv =>
    intro d' t e u h he
    have htop := topLevel h
    rw [hv] at htop
    rcases ht : Parser.topLevel (some nestingLimit) t with ⟨o, v'⟩
    rw [ht] at htop
    cases htop with
    | mismatch hstates =>
      obtain ⟨rfl, -⟩ := Result.fatal_inj he
      have hnext : t.nextKind ≠ .eof := h.nextKind ▸ hs
      refine ⟨_, _, Parser.unitItems_of_mismatch d' hnext ht, ?_⟩
      rw [hstates.nextKind]
      exact .unrecognized _ (T.errorNextLine hstates.readers)
  | case4 d s hs e₀ v hv =>
    intro d' t e u h he
    have htop := topLevel h
    rw [hv] at htop
    rcases ht : Parser.topLevel (some nestingLimit) t with ⟨o, v'⟩
    rw [ht] at htop
    obtain ⟨rfl, -⟩ := Result.fatal_inj he
    cases htop with
    | @fatal _ e' _ _ hlike hstates =>
      have hnext : t.nextKind ≠ .eof := h.nextKind ▸ hs
      exact ⟨e', v', Parser.unitItems_of_fatal d' hnext ht, hlike⟩
    | lost hl => exact hl.elim

end Tandem

/-- The line `l` of a text that begins on line 1 is the line `l'`, if it begins on line `first`. -/
def LineFrom (first l l' : Nat) : Prop := l' + 1 = l + first

/-- The place `c` in a text that begins at `base`, where `c` is counted from the beginning of the
text and `c'` is not. -/
structure Cursor.Behind (base c c' : Cursor) : Prop where
  index : c'.index = c.index + base.index
  line : LineFrom base.line c.line c'.line

namespace Reader

structure Behind (base : Cursor) (r t : Reader) : Prop where
  ahead : t.ahead = r.ahead
  cursor : base.Behind r.cursor t.cursor

variable {base : Cursor} {r t : Reader}

theorem behind_consumeIn (ts : List Token) {c c' : Cursor} (h : base.Behind c c') :
    Behind base (consumeIn ts c).2 (consumeIn ts c').2 := by
  obtain ⟨hindex, hline⟩ := h
  induction ts generalizing c c' with
  | nil => exact ⟨rfl, hindex, hline⟩
  | cons x ts ih =>
    have hnext : c'.index + 1 = c.index + 1 + base.index := by omega
    unfold consumeIn
    split
    · exact ⟨rfl, hnext, hline⟩
    · have hdown : LineFrom base.line (c.line + 1) (c'.line + 1) := by
        unfold LineFrom at hline ⊢
        omega
      exact ih hnext hdown

theorem Behind.next (h : Behind base r t) : r.next = t.next := by
  rw [next_eq, next_eq, h.ahead]

theorem Behind.rest (h : Behind base r t) : Behind base r.rest t.rest := by
  unfold Reader.rest consume
  rw [h.ahead]
  exact behind_consumeIn r.ahead h.cursor

theorem Behind.nextLine (h : Behind base r t) : LineFrom base.line r.nextLine t.nextLine := by
  have hline := h.cursor.line
  unfold LineFrom Reader.nextLine at *
  rw [h.ahead]
  omega

end Reader

/-- A parser between two calls: it may have parsed any units, its reader may have been put anywhere,
and its arena may have been used for something else. -/
inductive State.Idle : State → Prop where
  | start (reader : Reader) (arena : Arena) : Idle (.start reader arena)
  | unit {s : State} : Idle s → Idle (Parser.translationUnit (some nestingLimit) s).final
  | elsewhere {s : State} (reader : Reader) (arena : Arena) (log : List Event) : Idle s →
      Idle { s with reader := reader, arena := arena, log := log }

namespace State.Idle

variable {s : State}

theorem depth_eq (h : s.Idle) : s.depth = 0 := by
  induction h with
  | start reader arena => rfl
  | @unit s _ ih => rw [(Parser.keeps_translationUnit (some nestingLimit) s).depth, ih]
  | elsewhere _ _ _ _ ih => exact ih

theorem faithful (h : s.Idle) : s.interner.Faithful := by
  induction h with
  | start reader arena => exact Interner.faithful_empty
  | @unit s _ ih => exact (Parser.keeps_translationUnit (some nestingLimit) s).faithful ih
  | elsewhere _ _ _ _ ih => exact ih

end State.Idle

end MiniC
