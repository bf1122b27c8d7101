import MiniC.Proofs.Parsing.Program

namespace MiniC

open Syntax

theorem exists_of_filter_getElem? {tokens : List Token} {k : Nat} {t : Token}
    (h : (tokens.filter (·.isSignificant))[k]? = some t) :
    ∃ before after, tokens = before ++ t :: after ∧ t.isSignificant ∧
      before.countP (·.isSignificant) = k := by
  induction tokens generalizing k with
  | nil => simp at h
  | cons x tokens ih =>
    by_cases hx : x.isSignificant
    · rw [List.filter_cons_of_pos hx] at h
      cases k with
      | zero =>
        obtain rfl : x = t := Option.some.inj h
        exact ⟨[], tokens, rfl, hx, rfl⟩
      | succ k =>
        obtain ⟨before, after, rfl, ht, hk⟩ := ih h
        exact ⟨x :: before, after, rfl, ht, by simp [hx, hk]⟩
    · rw [List.filter_cons_of_neg hx] at h
      obtain ⟨before, after, rfl, ht, hk⟩ := ih h
      exact ⟨x :: before, after, rfl, ht, by simp [hx, hk]⟩

theorem exists_of_programTokens_getElem? {tokens : List Token} {k : Nat} {t : Token}
    (h : (programTokens tokens)[k]? = some t) :
    ∃ before after, tokens = before ++ t :: after ∧ t.isSignificant ∧
      before.countP (·.isSignificant) = k := by
  unfold programTokens at h
  obtain ⟨hlt, -⟩ := List.getElem?_eq_some_iff.mp h
  refine exists_of_filter_getElem? ?_
  rw [← List.takeWhile_append_dropWhile (p := fun x : Token => x.kind != .eof)
    (l := tokens.filter (·.isSignificant)), List.getElem?_append_left hlt]
  exact h

/-- If the row is that of a leaf, then the leaf was made from the significant token number `k`, and
it is on the line of that token, if the tokens begin on the line `first`. -/
def NodeRow.IsFrom (tokens : List Token) (first : Nat) (row : NodeRow) (k : Nat) : Prop :=
  ∀ kind, row.kind = .token kind → ∃ before t after, tokens = before ++ t :: after ∧
    t.isSignificant ∧ before.countP (·.isSignificant) = k ∧
    t.kind = kind ∧ t.identifier? = row.text? ∧
    row.line = first + before.countP (!·.isSignificant)

theorem Node.rows_isFrom {n : Node} {u : TranslationUnit} {tokens : List Token} {first : Nat}
    (hn : n.shape = u.shape) (hw : Written u.print (programTokens tokens))
    (hl : n.rows.toList.map NodeRow.line =
      u.firsts.map fun k => first + newlinesBefore tokens k) :
    List.Forall₂ (NodeRow.IsFrom tokens first) n.rows.toList u.firsts := by
  have hat := u.laid.isAt
  have hlabels : Shape.labelsAll [u.shape] =
      n.rows.toList.map (fun row => (row.kind, row.text?)) := by
    rw [n.labels_rows, hn, Shape.labelsAll, Shape.labelsAll, List.append_nil]
  rw [hlabels, List.forall₂_map_left_iff] at hat
  rw [← List.forall₂_eq_eq_eq, List.forall₂_map_left_iff, List.forall₂_map_right_iff] at hl
  refine List.Forall₂.mp (fun row k hrow hline kind hkind => ?_) hat hl
  obtain ⟨t, ht, hleaf⟩ := hw.exists_getElem? (hrow kind hkind)
  obtain ⟨before, after, rfl, hsig, hk⟩ := exists_of_programTokens_getElem? ht
  have hnewlines := newlinesBefore_significant before after hsig
  rw [hk] at hnewlines
  exact ⟨before, t, after, rfl, hsig, hk, congrArg Leaf.kind hleaf, congrArg Leaf.text? hleaf,
    hline.trans (congrArg (first + ·) hnewlines)⟩

/-- Every node is on the line of the token with which its text begins, a leaf on that of its own
token. Hence the lines of a tree in preorder never decrease. -/
theorem translationUnit_source_lines {tokens : List Token} {cursor : Cursor} {depth : Nat}
    {arena : Arena} {interner : Interner} {log : List Event} {n : Node} (hf : interner.Faithful)
    (h : (Parser.translationUnit (some nestingLimit)
      ⟨Reader.ofTokens tokens cursor, depth, arena, interner, log⟩).outcome = .matched n) :
    ∃ u : TranslationUnit, n.shape = u.shape ∧ u.Canonical ∧
      Written u.print (programTokens (tokens.drop cursor.index)) ∧
      n.rows.toList.map NodeRow.line =
        u.firsts.map (fun k => cursor.line + newlinesBefore (tokens.drop cursor.index) k) ∧
      List.Forall₂ (NodeRow.IsFrom (tokens.drop cursor.index) cursor.line) n.rows.toList u.firsts ∧
      ((∀ t ∈ tokens.drop cursor.index, ¬t.isSignificant) →
        n.line = cursor.line + (tokens.drop cursor.index).length) ∧
      (n.rows.toList.map NodeRow.line).Pairwise (· ≤ ·) := by
  let s : State := ⟨Reader.ofTokens tokens cursor, depth, arena, interner, log⟩
  obtain ⟨u, hu, hw, hn, hl, -⟩ := Parser.translationUnit_reads (s := s)
    (t := (Parser.translationUnit (some nestingLimit) s).final) hf (by rw [← h])
  have hlines : n.rows.toList.map NodeRow.line = u.firsts.map s.lineOf := n.lines_rows.trans hl
  refine ⟨u, hn, hu, hw, hlines, Node.rows_isFrom hn hw hlines, fun hempty => ?_, ?_⟩
  · have hcount : (tokens.drop cursor.index).countP (·.isSignificant) = 0 :=
      List.countP_eq_zero.mpr hempty
    have hall : (tokens.drop cursor.index).countP (!·.isSignificant) =
        (tokens.drop cursor.index).length :=
      List.countP_eq_length.mpr fun t ht => by simpa using hempty t ht
    have hroot : n.line = s.lineOf 0 := by
      rw [n.lines_eq, TranslationUnit.firsts, List.map_cons] at hl
      exact (List.cons.inj hl).1
    rw [← hall, ← newlinesBefore_all (Nat.le_of_eq hcount)]
    exact hroot
  rw [hlines]
  exact u.laid.sorted.map _ fun _ _ hij => s.reader.lineOf_mono hij

/-- The sample behind an empty line, read from its second line on. -/
theorem translationUnit_source_lines_sample :
    Interner.empty.Faithful ∧ ∃ n, (Parser.translationUnit (some nestingLimit)
        ⟨Reader.ofTokens (.newline :: sampleTokens) ⟨1, 2⟩, 0, .ofCapacity .packed 4096, .empty,
          []⟩).outcome = .matched n ∧
      ∃ u : TranslationUnit, n.shape = u.shape ∧ u.Canonical ∧
        Written u.print (programTokens sampleTokens) ∧
        n.rows.toList.map NodeRow.line =
          u.firsts.map (fun k => 2 + newlinesBefore sampleTokens k) ∧
        List.Forall₂ (NodeRow.IsFrom sampleTokens 2) n.rows.toList u.firsts ∧
        ((∀ t ∈ sampleTokens, ¬t.isSignificant) → n.line = 2 + sampleTokens.length) ∧
        (n.rows.toList.map NodeRow.line).Pairwise (· ≤ ·) := by
  have hw := written_sample
  rw [← sampleUnit_canonical.programTokens_eq hw] at hw
  obtain ⟨n, hn, -⟩ := Parser.translationUnit_complete sampleUnit_canonical
    (s := ⟨Reader.ofTokens (.newline :: sampleTokens) ⟨1, 2⟩, 0, .ofCapacity .packed 4096, .empty,
      []⟩) room_nestingLimit (fun i hi => (sampleUnit_nestsWithin i hi).fits)
    Interner.faithful_empty hw
  exact ⟨Interner.faithful_empty, n, hn,
    translationUnit_source_lines Interner.faithful_empty hn⟩

end MiniC
