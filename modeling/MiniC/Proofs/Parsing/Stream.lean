import MiniC.Proofs.Parsing.Lines
import MiniC.Token.Stream

namespace MiniC

namespace Reader

/-- Reading moves the cursor over some of the tokens ahead and counts the newlines of them. -/
theorem consumeIn_moves (ts : List Token) (c : Cursor) :
    ∃ moved, ts = moved ++ (consumeIn ts c).2.ahead ∧
      (consumeIn ts c).2.cursor =
        ⟨c.index + moved.length, c.line + moved.countP (·.kind == .newline)⟩ := by
  induction ts generalizing c with
  | nil => exact ⟨[], rfl, rfl⟩
  | cons t ts ih =>
    by_cases ht : t.kind = .newline
    · obtain ⟨moved, hahead, hcursor⟩ := ih ⟨c.index + 1, c.line + 1⟩
      have hsignificant : t.isSignificant = false := by
        simp [Token.isSignificant, TokenKind.isSignificant, ht]
      simp only [consumeIn, hsignificant, Bool.false_eq_true, if_false]
      refine ⟨t :: moved, congrArg (t :: ·) hahead, ?_⟩
      rw [hcursor, List.countP_cons_of_pos (by simp [ht]), List.length_cons]
      exact congrArg₂ Cursor.mk (by simp only; omega) (by simp only; omega)
    · have hsignificant : t.isSignificant = true := by
        simp [Token.isSignificant, TokenKind.isSignificant, ht]
      simp only [consumeIn, hsignificant, if_true]
      exact ⟨[t], rfl, by simp [ht]⟩

theorem ahead_consumeIn_of_newlines {ts : List Token} (c : Cursor)
    (h : ∀ t ∈ ts, t.kind = .newline) : (consumeIn ts c).2.ahead = [] := by
  induction ts generalizing c with
  | nil => rfl
  | cons t ts ih =>
    obtain ⟨ht, hts⟩ := List.forall_mem_cons.mp h
    simpa [consumeIn, Token.isSignificant, TokenKind.isSignificant, ht] using ih _ hts

theorem rest_of_ahead_nil {r : Reader} (h : r.ahead = []) : r.rest = r := by
  obtain ⟨ahead, cursor⟩ := r
  obtain rfl : ahead = [] := h
  rfl

end Reader

namespace TokenStream

def after (s : TokenStream) : Nat → TokenStream
  | 0 => s
  | k + 1 => s.consume.2.after k

theorem reader_consume (s : TokenStream) : s.consume.2.reader = s.reader.rest :=
  (Reader.consumeIn_eq_ofTokens rfl).symm

theorem consume_eq_peek (s : TokenStream) : s.consume.1 = s.peek 0 := s.reader.consume_fst

theorem peek_consume (s : TokenStream) (n : Nat) : s.consume.2.peek n = s.peek (n + 1) := by
  rw [peek, reader_consume, peek, Reader.peek_eq, Reader.peek_eq, Reader.filter_ahead_rest,
    List.getElem?_tail]

theorem line_consume (s : TokenStream) : s.consume.2.line = s.nextLine :=
  (congrArg Reader.line s.reader_consume).trans (s.reader.line_rest.trans s.reader.lineOf_zero)

theorem peek_after (s : TokenStream) (n k : Nat) : (s.after k).peek n = s.peek (n + k) := by
  induction k generalizing s with
  | zero => rfl
  | succ k ih => rw [after, ih, peek_consume, Nat.add_assoc]

/-- The cursor of `t` is the one of `s` moved over the tokens `moved` of the same list. -/
structure Moves (s : TokenStream) (moved : List Token) (t : TokenStream) : Prop where
  tokens : t.tokens = s.tokens
  ahead : s.reader.ahead = moved ++ t.reader.ahead
  index : t.cursor.index = s.cursor.index + moved.length
  line : t.line = s.line + moved.countP (·.kind == .newline)

namespace Moves

variable {s t u : TokenStream} {a b : List Token}

theorem refl (s : TokenStream) : s.Moves [] s := ⟨rfl, rfl, rfl, rfl⟩

theorem trans (h : s.Moves a t) (k : t.Moves b u) : s.Moves (a ++ b) u := by
  refine ⟨k.tokens.trans h.tokens, ?_, ?_, ?_⟩
  · rw [h.ahead, k.ahead, List.append_assoc]
  · rw [k.index, h.index, List.length_append, Nat.add_assoc]
  · rw [k.line, h.line, List.countP_append, Nat.add_assoc]

theorem eq_take (h : s.Moves a t) :
    a = (s.tokens.drop s.cursor.index).take (t.cursor.index - s.cursor.index) := by
  have hahead : s.tokens.drop s.cursor.index = a ++ t.reader.ahead := h.ahead
  rw [h.index, Nat.add_sub_cancel_left, hahead, List.take_left]

theorem index_le (h : s.Moves a t) : t.cursor.index ≤ max s.cursor.index s.tokens.length := by
  have hahead : s.tokens.drop s.cursor.index = a ++ t.reader.ahead := h.ahead
  have hlength := congrArg List.length hahead
  rw [List.length_drop, List.length_append] at hlength
  rw [h.index]
  omega

end Moves

theorem moves_consume (s : TokenStream) : ∃ moved, s.Moves moved s.consume.2 := by
  obtain ⟨moved, hahead, hcursor⟩ := Reader.consumeIn_moves s.reader.ahead s.cursor
  refine ⟨moved, rfl, ?_, congrArg Cursor.index hcursor, congrArg Cursor.line hcursor⟩
  rw [reader_consume]
  exact hahead

theorem moves_after (s : TokenStream) (k : Nat) : ∃ moved, s.Moves moved (s.after k) := by
  induction k generalizing s with
  | zero => exact ⟨[], .refl s⟩
  | succ k ih =>
    obtain ⟨first, hfirst⟩ := s.moves_consume
    obtain ⟨rest, hrest⟩ := ih s.consume.2
    exact ⟨first ++ rest, hfirst.trans hrest⟩

/-- Only newlines come from the cursor on. -/
def Spent (s : TokenStream) : Prop := ∀ t ∈ s.tokens.drop s.cursor.index, t.kind = .newline

theorem Spent.peek_eq {s : TokenStream} (h : s.Spent) (n : Nat) : s.peek n = .eof := by
  have hnone : s.reader.ahead.filter (·.isSignificant) = [] := by
    rw [List.filter_eq_nil_iff]
    intro t ht
    simp [Token.isSignificant, TokenKind.isSignificant, h t ht]
  rw [peek, Reader.peek_eq, hnone]
  rfl

theorem after_of_ahead_nil {s : TokenStream} (h : s.reader.ahead = []) (k : Nat) :
    s.after k = s := by
  have hone : s.consume.2 = s := by
    have hcursor : s.consume.2.cursor = s.cursor := by
      have hreader := s.reader_consume
      rw [Reader.rest_of_ahead_nil h] at hreader
      exact congrArg Reader.cursor hreader
    exact congrArg s.restore hcursor
  induction k with
  | zero => rfl
  | succ k ih => rw [after, hone, ih]

/-- The first consume goes over the newlines that are left, and the later ones stay there. -/
theorem Spent.after_succ {s : TokenStream} (h : s.Spent) (k : Nat) :
    s.after (k + 1) = s.consume.2 := by
  refine after_of_ahead_nil ?_ k
  rw [reader_consume]
  exact Reader.ahead_consumeIn_of_newlines s.cursor h

theorem atEnd_iff (s : TokenStream) :
    s.atEnd = true ↔
      ∀ t ∈ (s.tokens.drop s.cursor.index).find? (·.kind != .newline), t.kind = .eof := by
  have hnext : s.reader.next =
      ((s.tokens.drop s.cursor.index).find? (·.kind != .newline)).getD .eof := by
    rw [Reader.next_eq, List.head?_filter]
    rfl
  rw [atEnd, Reader.atEnd, beq_iff_eq, hnext]
  cases (s.tokens.drop s.cursor.index).find? (·.kind != .newline) with
  | none => simp [Token.eof, Token.plain]
  | some t => simp

/-- For any tokens and cursor the views agree: what is consumed is what was next, the lines and the
index grow by what is moved over, and at the end nothing changes. -/
theorem views_agree (s : TokenStream) (n k : Nat) :
    s.consume.1 = s.peek 0 ∧
    (s.after k).peek n = s.peek (n + k) ∧
    s.consume.2.line = s.nextLine ∧
    (s.after k).tokens = s.tokens ∧
    (s.after k).line = s.line + ((s.tokens.drop s.cursor.index).take
      ((s.after k).cursor.index - s.cursor.index)).countP (·.kind == .newline) ∧
    s.cursor.index ≤ (s.after k).cursor.index ∧
    (s.after k).cursor.index ≤ max s.cursor.index s.tokens.length ∧
    ((∀ t ∈ s.tokens.drop s.cursor.index, t.kind = .newline) →
      (s.after k).peek n = .eof ∧ (s.after k).consume.1 = .eof ∧
        (s.after (k + 1)).cursor = s.consume.2.cursor) ∧
    (s.atEnd = true ↔
      ∀ t ∈ (s.tokens.drop s.cursor.index).find? (·.kind != .newline), t.kind = .eof) := by
  obtain ⟨moved, hmoves⟩ := s.moves_after k
  refine ⟨s.consume_eq_peek, s.peek_after n k, s.line_consume, hmoves.tokens, ?_, ?_,
    hmoves.index_le, ?_, s.atEnd_iff⟩
  · rw [← hmoves.eq_take]
    exact hmoves.line
  · rw [hmoves.index]
    exact Nat.le_add_right _ _
  · intro hspent
    refine ⟨?_, ?_, congrArg cursor (Spent.after_succ hspent k)⟩
    · rw [peek_after]
      exact Spent.peek_eq hspent _
    · rw [consume_eq_peek, peek_after]
      exact Spent.peek_eq hspent _

/-- A stream whose cursor stands before two newlines at the end of the list. -/
theorem views_agree_trailing :
    ((⟨[.plain .semicolon, .newline, .newline], ⟨1, 1⟩⟩ : TokenStream).after 1).peek 0 = .eof ∧
      (⟨[.plain .semicolon, .newline, .newline], ⟨1, 1⟩⟩ : TokenStream).consume.2.cursor =
        ⟨3, 3⟩ ∧
      ((⟨[.plain .semicolon, .newline, .newline], ⟨1, 1⟩⟩ : TokenStream).after 3).cursor =
        ⟨3, 3⟩ := by
  obtain ⟨-, -, -, -, -, -, -, hspent, -⟩ :=
    views_agree ⟨[.plain .semicolon, .newline, .newline], ⟨1, 1⟩⟩ 0 1
  obtain ⟨-, -, -, -, -, -, -, hlater, -⟩ :=
    views_agree ⟨[.plain .semicolon, .newline, .newline], ⟨1, 1⟩⟩ 0 2
  have hleft : ∀ t ∈ ([.plain .semicolon, .newline, .newline] : List Token).drop 1,
      t.kind = .newline := by decide
  have hcursor : (⟨[.plain .semicolon, .newline, .newline], ⟨1, 1⟩⟩ : TokenStream).consume.2.cursor =
      ⟨3, 3⟩ := by decide
  exact ⟨(hspent hleft).1, hcursor, (hlater hleft).2.2.trans hcursor⟩

end TokenStream

end MiniC
