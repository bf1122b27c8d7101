import MiniC.Proofs.Parsing.Program
import MiniC.Proofs.Syntax.Leaves

namespace MiniC

open Syntax

/-- Only an identifier carries the text of one. -/
def Token.IsPaired (t : Token) : Prop := t.identifier?.isSome ↔ t.kind = .ident

namespace NodeRow

def leaf? (row : NodeRow) : Option Leaf := Shape.leaf? (row.kind, row.text?)

theorem leaf?_eq_some {row : NodeRow} {l : Leaf} (h : row.leaf? = some l) :
    row.kind = .token l.kind ∧ row.text? = l.text? := by
  unfold leaf? Shape.leaf? at h
  split at h
  · next hrow =>
    obtain ⟨hkind, htext⟩ := Prod.mk.inj hrow
    obtain rfl := Option.some.inj h
    exact ⟨hkind, htext⟩
  · simp at h

theorem leaf?_eq_none {row : NodeRow} (h : row.leaf? = none) (kind : TokenKind) :
    row.kind ≠ .token kind := by
  intro hkind
  rw [leaf?, hkind] at h
  simp [Shape.leaf?] at h

end NodeRow

/-- The leaves of a tree that was read are the tokens that are kept of its text, one by one and in
order, and no other node has a text. -/
theorem Node.rows_leaves {n : Node} {u : TranslationUnit} {tokens : List Token}
    (hn : n.shape = u.shape) (hw : Written u.print tokens) :
    n.rows.toList.filterMap NodeRow.leaf? = (keptTokens u.print tokens).map Leaf.ofToken ∧
      ∀ row ∈ n.rows.toList, row.leaf? = none → row.text? = none := by
  have hprints := u.prints
  have hlabels : Shape.labelsAll [u.shape] =
      n.rows.toList.map (fun row => (row.kind, row.text?)) := by
    rw [n.labels_rows, hn, Shape.labelsAll, Shape.labelsAll, List.append_nil]
  constructor
  · rw [← hw.leaves, ← hprints.leaves, hlabels, List.filterMap_map]
    rfl
  · intro row hrow hnone
    have hmem := List.mem_map_of_mem (f := fun row : NodeRow => (row.kind, row.text?)) hrow
    rw [← hlabels] at hmem
    exact hprints.blank _ hmem hnone

/-- Each leaf has the kind of its token and the text that the token carries, and no other node has a
text. So identifiers alone have texts if and only if kinds and payloads go together. -/
theorem translationUnit_texts {tokens : List Token} {cursor : Cursor} {depth : Nat}
    {arena : Arena} {interner : Interner} {log : List Event} {n : Node} (hf : interner.Faithful)
    (h : (Parser.translationUnit (some nestingLimit)
      ⟨Reader.ofTokens tokens cursor, depth, arena, interner, log⟩).outcome = .matched n) :
    ∃ u : TranslationUnit, n.shape = u.shape ∧ u.Canonical ∧
      Written u.print (programTokens (tokens.drop cursor.index)) ∧
      n.rows.toList.filterMap NodeRow.leaf? =
        (keptTokens u.print (programTokens (tokens.drop cursor.index))).map Leaf.ofToken ∧
      (∀ row ∈ n.rows.toList, row.leaf? = none → row.text? = none) ∧
      ((∀ row ∈ n.rows.toList, row.text?.isSome ↔ row.kind = .token .ident) ↔
        ∀ t ∈ keptTokens u.print (programTokens (tokens.drop cursor.index)), t.IsPaired) := by
  let s : State := ⟨Reader.ofTokens tokens cursor, depth, arena, interner, log⟩
  obtain ⟨u, hu, hw, hn⟩ := Parser.translationUnit_sound (s := s)
    (t := (Parser.translationUnit (some nestingLimit) s).final) hf (by rw [← h])
  change Written u.print (programTokens (tokens.drop cursor.index)) at hw
  obtain ⟨hleaves, hblank⟩ := Node.rows_leaves hn hw
  refine ⟨u, hn, hu, hw, hleaves, hblank, fun hrows t ht => ?_, fun hpaired row hrow => ?_⟩
  · have hmem := List.mem_map_of_mem (f := Leaf.ofToken) ht
    rw [← hleaves] at hmem
    obtain ⟨row, hrow, hleaf⟩ := List.mem_filterMap.mp hmem
    obtain ⟨hkind, htext⟩ := NodeRow.leaf?_eq_some hleaf
    have hiff := hrows row hrow
    rw [hkind, htext] at hiff
    simpa [Leaf.ofToken, Token.IsPaired] using hiff
  · cases hleaf : row.leaf? with
    | none => simp [hblank row hrow hleaf, NodeRow.leaf?_eq_none hleaf]
    | some l =>
      obtain ⟨hkind, htext⟩ := NodeRow.leaf?_eq_some hleaf
      have hmem := List.mem_filterMap.mpr ⟨row, hrow, hleaf⟩
      rw [hleaves] at hmem
      obtain ⟨t, ht, rfl⟩ := List.mem_map.mp hmem
      rw [hkind, htext]
      simpa [Leaf.ofToken, Token.IsPaired] using hpaired t ht

theorem translationUnit_texts_sample :
    Interner.empty.Faithful ∧ ∃ n, (Parser.translationUnit (some nestingLimit)
        ⟨Reader.ofTokens sampleTokens .start, 0, .ofCapacity .packed 4096, .empty, []⟩).outcome =
          .matched n ∧
      ∃ u : TranslationUnit, n.shape = u.shape ∧ u.Canonical ∧
        Written u.print (programTokens sampleTokens) ∧
        n.rows.toList.filterMap NodeRow.leaf? =
          (keptTokens u.print (programTokens sampleTokens)).map Leaf.ofToken ∧
        (∀ row ∈ n.rows.toList, row.leaf? = none → row.text? = none) ∧
        ((∀ row ∈ n.rows.toList, row.text?.isSome ↔ row.kind = .token .ident) ↔
          ∀ t ∈ keptTokens u.print (programTokens sampleTokens), t.IsPaired) := by
  have hw := written_sample
  rw [← sampleUnit_canonical.programTokens_eq hw] at hw
  obtain ⟨n, hn, -⟩ := Parser.translationUnit_complete sampleUnit_canonical
    (s := .start (Reader.ofTokens sampleTokens .start) (.ofCapacity .packed 4096))
    room_nestingLimit (fun i hi => (sampleUnit_nestsWithin i hi).fits) Interner.faithful_empty hw
  exact ⟨Interner.faithful_empty, n, hn, translationUnit_texts Interner.faithful_empty hn⟩

namespace Syntax

/-- `int a;`, where the keyword's token carries the text of an identifier. -/
def namedKeywordUnit : TranslationUnit :=
  [.definition ⟨⟨[⟨.kwInt, some "x"⟩], intType.isType⟩, some "a"⟩]

end Syntax

/-- Kinds alone do not tell which nodes have a text: a keyword that carries the text of an
identifier gets a leaf with this text. -/
theorem parse_texts_of_named_keyword :
    ∃ n, (parse [⟨.kwInt, .ident "x"⟩, .ident "a", .plain .semicolon]
        (.ofCapacity .packed 4096)).outcome = .matched n ∧
      ¬∀ row ∈ n.rows.toList, (row.text?.isSome ↔ row.kind = .token .ident) := by
  let tokens : List Token := [⟨.kwInt, .ident "x"⟩, .ident "a", .plain .semicolon]
  have hcanonical : namedKeywordUnit.Canonical := by
    intro i hi
    obtain rfl := List.mem_singleton.mp hi
    simp [Item.Canonical]
  have hwritten : Written namedKeywordUnit.print (programTokens tokens) := by
    repeat' constructor
  have hfits : ∀ i ∈ namedKeywordUnit, i.Fits (some nestingLimit) 0 := by
    intro i hi
    obtain rfl := List.mem_singleton.mp hi
    trivial
  obtain ⟨n, hn, hshape⟩ := Parser.translationUnit_complete hcanonical
    (s := .start (Reader.ofTokens tokens .start) (.ofCapacity .packed 4096))
    room_nestingLimit hfits Interner.faithful_empty hwritten
  refine ⟨n, hn, fun hrows => ?_⟩
  have hlabels := n.labels_rows
  rw [hshape] at hlabels
  have hmem : (NodeKind.token .kwInt, some "x") ∈
      (TranslationUnit.shape namedKeywordUnit).labels := by decide
  rw [← hlabels] at hmem
  obtain ⟨row, hrow, heq⟩ := List.mem_map.mp hmem
  obtain ⟨hkind, htext⟩ := Prod.mk.inj heq
  have hiff := hrows row hrow
  rw [hkind, htext] at hiff
  simp at hiff

end MiniC
