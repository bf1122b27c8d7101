import MiniC.Proofs.Syntax.Words

namespace MiniC

namespace Grammar

/-- How many kinds come before the first `;` or `)` outside of parentheses, of which so many are
open already, if only kinds of expressions do. Newlines are not counted. -/
def scan : Nat → Word → Option Nat
  | _, [] => none
  | opened, k :: w =>
    match k with
    | .newline => scan opened w
    | .lParen => (scan (opened + 1) w).map (· + 1)
    | .rParen =>
      match opened with
      | 0 => some 0
      | outer + 1 => (scan outer w).map (· + 1)
    | .semicolon => if opened = 0 then some 0 else none
    | .lBrace | .rBrace | .eof => none
    | _ => (scan opened w).map (· + 1)

variable {opened i : Nat} {k : TokenKind} {e w : Word}

theorem scan_lParen (opened : Nat) (w : Word) :
    scan opened (.lParen :: w) = (scan (opened + 1) w).map (· + 1) := rfl

theorem scan_rParen (opened : Nat) (w : Word) :
    scan (opened + 1) (.rParen :: w) = (scan opened w).map (· + 1) := rfl

theorem scan_end (hk : k = .semicolon ∨ k = .rParen) (w : Word) : scan 0 (k :: w) = some 0 := by
  rcases hk with rfl | rfl <;> rfl

theorem scan_operand (hk : IsOperand k) (w : Word) :
    scan opened (k :: w) = (scan opened w).map (· + 1) := by
  revert hk
  cases k <;> intro hk <;> first | rfl | exact absurd hk (by decide)

theorem scan_cons_congr {v : Word} (h : ∀ opened, scan opened v = scan opened w) :
    scan opened (k :: v) = scan opened (k :: w) := by
  simp only [scan, h]

/-- A whole expression leaves as many parentheses open as there were. -/
theorem IsExpression.scan_append (h : IsExpression e) (opened : Nat) (w : Word) :
    scan opened (e ++ w) = (scan opened w).map (· + e.length) := by
  induction h generalizing opened w with
  | nil => simp
  | operand hk _ ih =>
    rw [List.cons_append, scan_operand hk, ih]
    simp [Function.comp_def, Nat.add_assoc]
  | group _ _ ihe ihw =>
    rw [List.cons_append, scan_lParen, List.append_assoc, ihe, List.cons_append, scan_rParen, ihw]
    simp only [Option.map_map, Function.comp_def, List.length_cons, List.length_append]
    congr
    funext n
    omega

/-- Expressions with a `)` behind each of them but the last, one more than so many. -/
def Closes : Nat → Word → Prop
  | 0, w => IsExpression w
  | opened + 1, w => ∃ e v, IsExpression e ∧ Closes opened v ∧ w = e ++ .rParen :: v

theorem Closes.operand (hk : IsOperand k) (h : Closes opened w) : Closes opened (k :: w) := by
  cases opened with
  | zero => exact .operand hk h
  | succ outer =>
    obtain ⟨e, v, he, hv, rfl⟩ := h
    exact ⟨k :: e, v, .operand hk he, hv, rfl⟩

theorem Closes.lParen (h : Closes (opened + 1) w) : Closes opened (.lParen :: w) := by
  obtain ⟨e, v, he, hv, rfl⟩ := h
  cases opened with
  | zero => exact .group he hv
  | succ outer =>
    obtain ⟨e', v', he', hv', rfl⟩ := hv
    exact ⟨.lParen :: (e ++ .rParen :: e'), v', .group he he', hv', by simp⟩

theorem closes_of_scan (hw : .newline ∉ w) (h : scan opened w = some i) :
    ∃ e k r, w = e ++ k :: r ∧ e.length = i ∧ Closes opened e ∧ (k = .semicolon ∨ k = .rParen) := by
  induction w generalizing opened i with
  | nil => simp [scan] at h
  | cons k w ih =>
    have hw' : .newline ∉ w := fun hm => hw (List.mem_cons_of_mem _ hm)
    -- a token that is passed over adds one to the length of what is found behind it
    have further {n : Nat} (hi : (scan n w).map (· + 1) = some i)
        (hc : ∀ {e : Word}, Closes n e → Closes opened (k :: e)) :
        ∃ e k' r, k :: w = e ++ k' :: r ∧ e.length = i ∧ Closes opened e ∧
          (k' = .semicolon ∨ k' = .rParen) := by
      obtain ⟨j, hj, rfl⟩ := Option.map_eq_some_iff.mp hi
      obtain ⟨e, k', r, rfl, rfl, he, hk⟩ := ih hw' hj
      exact ⟨k :: e, k', r, rfl, rfl, hc he, hk⟩
    by_cases hk : IsOperand k
    · rw [scan_operand hk] at h
      exact further h (.operand hk)
    · unfold IsOperand at hk
      simp only [List.mem_cons, List.not_mem_nil, or_false, not_not] at hk
      rcases hk with rfl | rfl | rfl | rfl | rfl | rfl | rfl
      · simp only [scan] at h
        split at h
        · next hopen =>
          subst hopen
          obtain rfl := Option.some.inj h
          exact ⟨[], _, w, rfl, rfl, .nil, .inl rfl⟩
        · simp at h
      · exact further h .lParen
      · cases opened with
        | zero =>
          obtain rfl : 0 = i := Option.some.inj h
          exact ⟨[], _, w, rfl, rfl, .nil, .inr rfl⟩
        | succ outer => exact further h fun he => ⟨[], _, .nil, he, rfl⟩
      · simp [scan] at h
      · simp [scan] at h
      · simp [scan] at h
      · simp at hw

/-- Counting finds the expressions with an end behind them. -/
theorem scan_eq_some_iff (hw : .newline ∉ w) :
    scan 0 w = some i ↔
      ∃ e k r, w = e ++ k :: r ∧ e.length = i ∧ IsExpression e ∧ (k = .semicolon ∨ k = .rParen) := by
  constructor
  · exact closes_of_scan hw
  · rintro ⟨e, k, r, rfl, rfl, he, hk⟩
    rw [he.scan_append, scan_end hk]
    simp

end Grammar

namespace Syntax

open Grammar

/-- What the tokens of an expression make: a leaf for each outside of parentheses, and for each
outermost pair of them a cast, where the group is a type, or else an expression. -/
inductive Operands : List Token → List Shape → Prop
  | nil : Operands [] []
  | leaf {t : Token} {ts : List Token} {xs : List Shape} :
      IsOperand t.kind → Operands ts xs → Operands (t :: ts) ((Leaf.ofToken t).shape :: xs)
  | cast {l r : Token} {g ts : List Token} {xs : List Shape} :
      l.kind = .lParen → r.kind = .rParen → IsType (g.map Token.kind) → Operands ts xs →
      Operands (l :: (g ++ r :: ts)) (⟨.cast, none, g.map fun t => (Leaf.ofToken t).shape⟩ :: xs)
  | group {l r : Token} {g ts : List Token} {ys xs : List Shape} :
      l.kind = .lParen → r.kind = .rParen → ¬IsType (g.map Token.kind) → Operands g ys →
      Operands ts xs → Operands (l :: (g ++ r :: ts)) (⟨.expression, none, ys⟩ :: xs)

theorem Operands.isExpression {ts : List Token} {xs : List Shape} (h : Operands ts xs) :
    IsExpression (ts.map Token.kind) := by
  induction h with
  | nil => exact .nil
  | leaf hk _ ih => exact .operand hk ih
  | @cast l r g ts xs hl hr hty _ ih =>
    have hg : IsExpression (g.map Token.kind) :=
      isExpression_of_operands fun k hk => isOperand_of_isTypePart (hty.isTypePart_of_mem hk)
    simpa [hl, hr] using IsExpression.group hg ih
  | group hl hr _ _ _ ihg ih => simpa [hl, hr] using IsExpression.group ihg ih

/-- A group ends at the first `)` outside of further parentheses. -/
theorem group_unique {g g' ts ts' : List Token} {r r' : Token}
    (hg : IsExpression (g.map Token.kind)) (hg' : IsExpression (g'.map Token.kind))
    (hr : r.kind = .rParen) (hr' : r'.kind = .rParen) (h : g ++ r :: ts = g' ++ r' :: ts') :
    g = g' ∧ ts = ts' := by
  have scan_group {g ts : List Token} {r : Token} (hg : IsExpression (g.map Token.kind))
      (hr : r.kind = .rParen) : scan 0 ((g ++ r :: ts).map Token.kind) = some g.length := by
    rw [List.map_append, hg.scan_append, List.map_cons, scan_end (.inr hr)]
    simp
  have hlength : g.length = g'.length :=
    Option.some.inj ((scan_group hg hr).symm.trans (h ▸ scan_group hg' hr'))
  obtain ⟨rfl, hrest⟩ := List.append_inj h hlength
  exact ⟨rfl, (List.cons.inj hrest).2⟩

/-- Tokens make only one row of operands. -/
theorem Operands.unique {ts : List Token} {xs ys : List Shape} (h : Operands ts xs)
    (k : Operands ts ys) : xs = ys := by
  have not_lParen {t : Token} (ht : IsOperand t.kind) : t.kind ≠ .lParen := fun hk => by
    rw [hk] at ht
    exact absurd ht (by decide)
  have isExpression_of_isType {g : List Token} (hg : IsType (g.map Token.kind)) :
      IsExpression (g.map Token.kind) :=
    isExpression_of_operands fun k hk => isOperand_of_isTypePart (hg.isTypePart_of_mem hk)
  -- the first token tells a leaf from a group, and what is inside a cast from an expression
  induction h generalizing ys with
  | nil => cases k; rfl
  | @leaf t ts xs ht _ ih =>
    generalize hv : t :: ts = v at k
    cases k with
    | nil => simp at hv
    | leaf _ k =>
      obtain ⟨rfl, rfl⟩ := List.cons.inj hv
      rw [ih k]
    | cast hl _ _ _ => exact absurd ((List.cons.inj hv).1 ▸ hl) (not_lParen ht)
    | group hl _ _ _ _ => exact absurd ((List.cons.inj hv).1 ▸ hl) (not_lParen ht)
  | @cast l r g ts xs hl hr hty _ ih =>
    generalize hv : l :: (g ++ r :: ts) = v at k
    cases k with
    | nil => simp at hv
    | leaf ht _ => exact absurd hl (not_lParen ((List.cons.inj hv).1 ▸ ht))
    | cast _ hr' hty' k =>
      obtain ⟨rfl, rfl⟩ := group_unique (isExpression_of_isType hty) (isExpression_of_isType hty')
        hr hr' (List.cons.inj hv).2
      rw [ih k]
    | group _ hr' hty' kg _ =>
      obtain ⟨rfl, -⟩ := group_unique (isExpression_of_isType hty) kg.isExpression hr hr'
        (List.cons.inj hv).2
      exact absurd hty hty'
  | @group l r g ts ys' xs hl hr hty hg _ ihg ih =>
    generalize hv : l :: (g ++ r :: ts) = v at k
    cases k with
    | nil => simp at hv
    | leaf ht _ => exact absurd hl (not_lParen ((List.cons.inj hv).1 ▸ ht))
    | cast _ hr' hty' _ =>
      obtain ⟨rfl, -⟩ := group_unique hg.isExpression (isExpression_of_isType hty') hr hr'
        (List.cons.inj hv).2
      exact absurd hty' hty
    | group _ hr' _ kg k =>
      obtain ⟨rfl, rfl⟩ := group_unique hg.isExpression kg.isExpression hr hr' (List.cons.inj hv).2
      rw [ihg kg, ih k]

theorem Expression.eq_ofLeaves_of_written {e : Expression} {v : List Token} (h : Written e.print v)
    (hv : ∀ t ∈ v, t.kind ≠ .lParen) : e = ofLeaves (v.map Leaf.ofToken) := by
  induction e generalizing v with
  | nil =>
    rw [written_nil_iff.mp h]
    rfl
  | leaf l rest ih =>
    obtain ⟨t, w, rfl, hl, hw⟩ := written_cons_iff.mp h
    rw [ih hw fun x hx => hv x (List.mem_cons_of_mem _ hx)]
    exact congrArg (leaf · _) (Eq.symm hl)
  | cast ty rest ih =>
    obtain ⟨t, w, rfl, hl, -⟩ := written_cons_iff.mp h
    exact absurd hl (hv t List.mem_cons_self)
  | group inner rest ihi ihr =>
    obtain ⟨t, w, rfl, hl, -⟩ := written_cons_iff.mp h
    exact absurd hl (hv t List.mem_cons_self)

/-- The tokens of a canonical expression make its operands. -/
theorem Expression.Canonical.operands {e : Expression} (he : e.Canonical) {v : List Token}
    (h : Written e.print v) : Operands v e.shapes := by
  induction e generalizing v with
  | nil =>
    rw [written_nil_iff.mp h]
    exact .nil
  | leaf l rest ih =>
    obtain ⟨t, w, rfl, rfl, hw⟩ := written_cons_iff.mp h
    exact .leaf he.1 (ih he.2 hw)
  | cast ty rest ih =>
    obtain ⟨l, w, rfl, hl, hw⟩ := written_cons_iff.mp h
    obtain ⟨g, w', rfl, hg, hw'⟩ := written_append_iff.mp hw
    obtain ⟨r, ts, rfl, hr, hts⟩ := written_cons_iff.mp hw'
    obtain ⟨hty, rfl⟩ := TypeName.eq_ofTokens hg
    rw [shapes, TypeName.shapes, TypeName.ofTokens, List.map_map]
    exact .cast hl hr hty (ih he hts)
  | group inner rest ihi ihr =>
    obtain ⟨l, w, rfl, hl, hw⟩ := written_cons_iff.mp h
    obtain ⟨g, w', rfl, hg, hw'⟩ := written_append_iff.mp hw
    obtain ⟨r, ts, rfl, hr, hts⟩ := written_cons_iff.mp hw'
    have hty : ¬IsType (g.map Token.kind) := by
      intro hty
      have hplain : ∀ t ∈ g, t.kind ≠ .lParen := fun t ht hk => by
        have hpart := hty.isTypePart_of_mem (List.mem_map_of_mem ht)
        rw [hk] at hpart
        exact absurd hpart (by decide)
      refine he.1 _ (eq_ofLeaves_of_written hg hplain) ?_
      rwa [map_kind_ofToken]
    exact .group hl hr hty (ihi he.2.1 hg) (ihr he.2.2 hts)

end Syntax

end MiniC
