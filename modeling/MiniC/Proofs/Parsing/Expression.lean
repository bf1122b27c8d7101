import MiniC.Proofs.Parsing.Declaration

namespace MiniC

open Syntax Grammar

namespace Syntax

/-- A `;` or `)` comes next. -/
def IsEnd (l : List Token) : Prop := ∃ x m, l = x :: m ∧ (x.kind = .semicolon ∨ x.kind = .rParen)

theorem isEnd_of_written {k : TokenKind} (hk : k = .semicolon ∨ k = .rParen) {l r : List Token}
    (h : WrittenUpTo [.mark k] l r) : IsEnd l := by
  obtain ⟨x, m, rfl, hx, -⟩ := h.uncons
  rw [← show x.kind = k from hx] at hk
  exact ⟨x, m, rfl, hk⟩

theorem IsEnd.not_operand {x : Token} {l : List Token} (h : IsEnd (x :: l)) : ¬IsOperand x.kind := by
  obtain ⟨y, m, hy, hk⟩ := h
  obtain ⟨rfl, rfl⟩ := List.cons.inj hy
  rcases hk with hk | hk <;> rw [hk] <;> decide

theorem IsEnd.ne_lParen {x : Token} {l : List Token} (h : IsEnd (x :: l)) : x.kind ≠ .lParen := by
  obtain ⟨y, m, hy, hk⟩ := h
  obtain ⟨rfl, rfl⟩ := List.cons.inj hy
  rcases hk with hk | hk <;> rw [hk] <;> decide

namespace Expression

theorem not_lParen_of_operands {ls : List Leaf} (hls : ∀ l ∈ ls, IsOperand l.kind) {x : Token}
    {m r : List Token} (h : WrittenUpTo (ls.map .leaf) (x :: m) r) (hr : IsEnd r) :
    x.kind ≠ .lParen := by
  cases ls with
  | nil =>
    obtain rfl := h.eq_of_nil
    exact hr.ne_lParen
  | cons l ls =>
    obtain ⟨hl, -⟩ := WrittenUpTo.of_cons h
    intro hk
    have ho : IsOperand x.kind := hl.kind_eq ▸ hls l (by simp)
    rw [hk] at ho
    exact absurd ho (by decide)

/-- What a row of operands up to its end is written by is no other expression. -/
theorem eq_ofLeaves {e : Expression} (he : e.Canonical) {ls : List Leaf}
    (hls : ∀ l ∈ ls, IsOperand l.kind) {l r r' : List Token} (h : WrittenUpTo e.print l r)
    (k : WrittenUpTo (ls.map .leaf) l r') (hr : IsEnd r) (hr' : IsEnd r') : e = ofLeaves ls := by
  induction e generalizing ls l with
  | nil =>
    obtain rfl := h.eq_of_nil
    cases ls with
    | nil => rfl
    | cons l' ls =>
      obtain ⟨y, m', rfl, hl, -⟩ := WrittenUpTo.uncons k
      have ho : IsOperand y.kind := hl.kind_eq ▸ hls l' (by simp)
      exact absurd ho hr.not_operand
  | leaf l₁ rest ih =>
    obtain ⟨x, m, rfl, hx, hm⟩ := WrittenUpTo.uncons h
    cases ls with
    | nil =>
      obtain rfl := k.eq_of_nil
      have ho : IsOperand x.kind := hx.kind_eq ▸ he.1
      exact absurd ho hr'.not_operand
    | cons l' ls =>
      obtain ⟨hl, hm'⟩ := WrittenUpTo.of_cons k
      have hrest := ih he.2 (fun l hl => hls l (by simp [hl])) hm hm'
      have hfirst : l₁ = l' := Eq.trans (Eq.symm hx) hl
      rw [hfirst, hrest, ofLeaves]
  | cast ty rest ih =>
    obtain ⟨x, m, rfl, hx, -⟩ := WrittenUpTo.uncons h
    exact absurd hx (not_lParen_of_operands hls k hr')
  | group inner rest ihi ihr =>
    obtain ⟨x, m, rfl, hx, -⟩ := WrittenUpTo.uncons h
    exact absurd hx (not_lParen_of_operands hls k hr')

/-- With so many rules in progress around its operands, there is room to try all that the expression
is made of. -/
def Fits (limit : Option Nat) : Nat → Expression → Prop
  | _, nil => True
  | depth, leaf _ rest => rest.Fits limit depth
  | depth, cast _ rest => Room limit (depth + 2) ∧ rest.Fits limit depth
  | depth, group inner rest =>
    Room limit (depth + 2) ∧ inner.Fits limit (depth + 1) ∧ rest.Fits limit depth

theorem fits_none (e : Expression) (depth : Nat) : e.Fits none depth := by
  induction e generalizing depth with
  | nil => trivial
  | leaf l rest ih => exact ih depth
  | cast ty rest ih => exact ⟨room_none _, ih depth⟩
  | group inner rest ihi ihr => exact ⟨room_none _, ihi _, ihr _⟩

end Expression

end Syntax

theorem TokenKind.close_iff {k : TokenKind} :
    k.expressionPart = .close ↔ k = .semicolon ∨ k = .rParen := by
  cases k <;> decide

theorem TokenKind.group_iff {k : TokenKind} : k.expressionPart = .group ↔ k = .lParen := by
  cases k <;> decide

theorem TokenKind.operand_iff {k : TokenKind} (hk : k ≠ .newline) :
    k.expressionPart = .operand ↔ IsOperand k := by
  revert hk
  cases k <;> decide

theorem State.isEnd_pending_iff {s : State} :
    IsEnd s.pending ↔ s.nextKind.expressionPart = .close := by
  rw [TokenKind.close_iff]
  constructor
  · rintro ⟨x, m, hx, hk⟩
    rwa [nextKind_of_pending hx]
  · intro h
    obtain ⟨x, m, hx, hk⟩ := exists_pending (s := s) rfl (by rcases h with h | h <;> simp [h])
    exact ⟨x, m, hx, by rwa [hk]⟩

namespace Parser

variable {limit : Option Nat} {s t : State} {d d' : Draft} {n : Node}

theorem keeps_cast (limit : Option Nat) : Keeps (cast limit) :=
  Keeps.tryRule ((keeps_typeName limit).andThen fun _ =>
    (keeps_expect (by simp)).andThen fun _ => keeps_pure _) limit .cast

theorem mild_cast (limit : Option Nat) : Mild limit 2 (cast limit) := by
  refine Mild.tryRule (k := 1) ?_ .cast
  refine .andThen (keeps_typeName limit) (mild_typeName limit) fun _ => ?_
  exact .andThen (keeps_expect (by simp)) (mild_expect _) fun _ => mild_pure _

theorem kept_expression
    (h : ∀ (d : Draft) (t : State), t.left ≤ s.left → t.Kept (operands limit d t).final) :
    s.Kept (expression limit s).final := by
  rw [expression_eq]
  refine kept_tryRule (kept_bind (keeps_openNode _ _ _) fun d t ht => ?_)
  have hk := (keeps_openNode _ _).of_eq ht
  exact kept_bind (h d t hk.left_le) fun _ _ _ => .refl _

theorem keeps_operands (limit : Option Nat) (d : Draft) : Keeps (operands limit d) := by
  intro s
  induction hn : s.left using Nat.strongRecOn generalizing d s with
  | ind n ih =>
    subst hn
    have ih (d : Draft) (t : State) (ht : t.left < s.left) := ih t.left ht d t rfl
    rw [operands_eq]
    split
    · exact .refl s
    · exact .refl s
    · next hp =>
      have hs := TokenKind.ne_eof_of_operand hp
      exact (State.kept_addLeaf d hs).trans (ih _ _ (State.left_addLeaf_lt d hs))
    · next hp =>
      have hs := TokenKind.ne_eof_of_group hp
      have hlt : s.skip.left < s.left := State.left_skip_lt hs
      have hinner : s.skip.Kept ((cast limit).orElse (group limit) s.skip).final := by
        refine kept_orElse (keeps_cast limit _) fun t ht => ?_
        have htl := ((keeps_cast limit).of_eq ht).left_le
        refine kept_bind (kept_expression fun d u hu => ih d u (by omega)) fun _ _ _ => ?_
        exact ((keeps_expect (by simp)).andThen fun _ => keeps_pure _) _
      have hmore := kept_bind (f := fun inner => append d inner) hinner fun _ _ _ => keeps_append _ _ _
      refine (State.kept_skip hs).trans (kept_bind hmore fun d' t ht => ih d' t ?_)
      rw [ht] at hmore
      exact Nat.lt_of_le_of_lt hmore.left_le hlt

theorem keeps_expression (limit : Option Nat) : Keeps (expression limit) :=
  fun _ => kept_expression fun d t _ => keeps_operands limit d t

theorem keeps_group (limit : Option Nat) : Keeps (group limit) :=
  (keeps_expression limit).andThen fun _ => (keeps_expect (by simp)).andThen fun _ => keeps_pure _

theorem keeps_inner (limit : Option Nat) (d : Draft) :
    Keeps ((cast limit).orElse (group limit) >>= fun inner => append d inner) :=
  ((keeps_cast limit).orElse (keeps_group limit)).andThen fun _ => keeps_append _ _

theorem mild_expression_of
    (h : ∀ (d : Draft) (t : State), t.left ≤ s.left → ∀ e u, operands none d t ≠ ⟨.fatal e, u⟩) :
    ∀ e u, expression none s ≠ ⟨.fatal e, u⟩ := by
  intro e u he
  rw [expression_eq] at he
  obtain ⟨v, hv, -⟩ := tryRule_eq_fatal (room_none _) he
  rcases bind_eq_fatal hv with hv | ⟨d, t, ht, hv⟩
  · simp [openNode, step] at hv
  · have hk := (keeps_openNode _ _).of_eq ht
    rcases bind_eq_fatal hv with hv | ⟨d', t', -, hv⟩
    · exact h d t hk.left_le e _ hv
    · simp [pure_apply] at hv

theorem mild_operands (d : Draft) {k : Nat} : Mild none k (operands none d) := by
  refine .of_never fun s => ?_
  induction hn : s.left using Nat.strongRecOn generalizing d s with
  | ind n ih =>
    subst hn
    have ih (d : Draft) (t : State) (ht : t.left < s.left) := ih t.left ht d t rfl
    intro e u
    rw [operands_eq]
    split
    · simp
    · simp
    · next hp => exact ih _ _ (State.left_addLeaf_lt d (TokenKind.ne_eof_of_operand hp)) e u
    · next hp =>
      have hlt : s.skip.left < s.left := State.left_skip_lt (TokenKind.ne_eof_of_group hp)
      intro h
      rcases bind_eq_fatal h with h | ⟨d', t, ht, h⟩
      · rcases bind_eq_fatal h with h | ⟨_, _, -, h⟩
        · rcases orElse_eq_fatal h with h | ⟨t, ht, h⟩
          · exact mild_cast none _ (room_none _) e u h
          · have htl := ((keeps_cast none).of_eq ht).left_le
            rcases bind_eq_fatal h with h | ⟨inner, _, -, h⟩
            · exact mild_expression_of (fun d v hv => ih d v (by omega)) e u h
            · have hm : Mild none 0 (expect .rParen >>= fun _ => pure inner) :=
                Mild.andThen (keeps_expect (by simp)) (mild_expect _) fun _ => mild_pure _
              exact hm _ (room_none _) e u h
        · simp [append, step] at h
      · have := ((keeps_inner none d).of_eq ht).left_le
        exact ih d' t (by omega) e u h

theorem mild_expression {k : Nat} : Mild none k (expression none) :=
  .of_never fun _ => mild_expression_of fun d t _ => mild_operands (k := 0) d t (room_none _)

theorem cast_sound (hf : s.interner.Faithful) (h : cast limit s = ⟨.matched n, t⟩) :
    ∃ ty : TypeName, WrittenUpTo (ty.print ++ [.mark .rParen]) s.pending t.pending ∧
      n.shape = ⟨.cast, none, ty.shapes⟩ ∧ n.lines = ty.firsts.map s.lineOf ∧
      Room limit (s.depth + 2) := by
  obtain ⟨u, k, hu⟩ := tryRule_eq_matched h
  obtain ⟨ty, s₁, h₁, k₁⟩ := bind_eq_matched k
  obtain ⟨_, s₂, h₂, k₂⟩ := bind_eq_matched k₁
  obtain ⟨rfl, rfl⟩ := pure_eq_matched k₂
  obtain ⟨type, hp, hs, hl⟩ := typeName_sound (s := s.enter .cast) hf h₁
  have hclose := expect_sound (by simp) h₂
  have hroom := room_of_matched h₁
  rw [← hu] at hclose
  refine ⟨type, hp.trans hclose, ?_, ?_, hroom⟩
  · rw [Node.shape_eq] at hs ⊢
    simp_all [Node.toCast, Node.spelling?]
  · rw [Node.lines_eq] at hl ⊢
    exact hl

theorem cast_complete {ty : TypeName} {rest : List Token} (hroom : Room limit (s.depth + 2))
    (hf : s.interner.Faithful) (h : WrittenUpTo (ty.print ++ [.mark .rParen]) s.pending rest) :
    ∃ n t, cast limit s = ⟨.matched n, t⟩ ∧ t.pending = rest ∧
      n.shape = ⟨.cast, none, ty.shapes⟩ := by
  let s₀ := s.enter .cast
  obtain ⟨m, hty, hclose⟩ := h.split
  obtain ⟨x, m', rfl, hx, -⟩ := hclose.uncons
  obtain ⟨type, s₁, h₁, hp₁, hs⟩ := typeName_complete (s := s₀) hroom hf hty (.inr hx)
  obtain ⟨h₂, hp₂⟩ := expect_complete (hp₁ ▸ hclose)
  refine ⟨type.toCast, { s₁.skip with depth := s₁.skip.depth - 1 }, ?_, hp₂, ?_⟩
  · apply tryRule_of_matched (hroom.mono (by omega))
    refine (bind_of_matched h₁).trans ?_
    exact bind_of_matched h₂
  · rw [Node.shape_eq] at hs ⊢
    simp_all [Node.toCast, Node.spelling?]

theorem cast_eq_mismatch (h : cast limit s = ⟨.mismatch, t⟩) :
    Room limit (s.depth + 2) ∧ t.pending = s.pending := by
  obtain ⟨-, hp, u, hu⟩ := tryRule_eq_mismatch h
  refine ⟨?_, hp⟩
  by_contra hr
  have hty : typeName limit (s.enter .cast) = (s.enter .cast).refuse .type := tryRule_of_full hr
  simp [bind_of_fatal hty] at hu

/-- From `s` on, operands are read as they are written, up to the end of an expression. -/
def OperandsSound (limit : Option Nat) (s : State) : Prop :=
  ∀ (d d' : Draft) (t : State), operands limit d s = ⟨.matched d', t⟩ →
    ∃ e : Expression, e.Canonical ∧ WrittenUpTo e.print s.pending t.pending ∧
      d.Extends e.shapes d' ∧ IsEnd t.pending ∧ d.Gains (e.partFirsts.map s.lineOf) d' ∧
      e.Fits limit s.depth

theorem expression_sound_of (hf : s.interner.Faithful)
    (hoperands : ∀ t : State, t.left ≤ s.left → t.interner.Faithful → OperandsSound limit t)
    (h : expression limit s = ⟨.matched n, t⟩) :
    ∃ e : Expression, e.Canonical ∧ WrittenUpTo e.print s.pending t.pending ∧
      n.shape = e.shape ∧ IsEnd t.pending ∧ n.lines = e.firsts.map s.lineOf ∧
      e.Fits limit (s.depth + 1) := by
  rw [expression_eq] at h
  obtain ⟨u, k, hu⟩ := tryRule_eq_matched h
  obtain ⟨d, s₁, h₁, k₁⟩ := bind_eq_matched k
  obtain ⟨d', s₂, h₂, k₂⟩ := bind_eq_matched k₁
  obtain ⟨rfl, rfl⟩ := step_eq_matched h₁
  obtain ⟨rfl, rfl⟩ := pure_eq_matched k₂
  obtain ⟨e, he, hp, hd, hend, hg, hfit⟩ :=
    hoperands ((s.enter .expression).openNode .expression 4).2 (Nat.le_refl _) hf _ _ _ h₂
  rw [← hu] at hp hend
  refine ⟨e, he, hp, hd.shape_close, hend, ?_, hfit⟩
  rw [hg.lines_close, Expression.firsts, List.map_cons, State.lineOf_zero]
  rfl

/-- What is between parentheses makes the first operand of an expression; `rest` are the others. -/
theorem inner_sound (hf : s.interner.Faithful)
    (hoperands : ∀ t : State, t.left ≤ s.left → t.interner.Faithful → OperandsSound limit t)
    (h : (cast limit).orElse (group limit) s = ⟨.matched n, t⟩) (rest : Expression)
    (hrest : rest.Canonical) (hfit : rest.Fits limit s.depth) :
    ∃ e : Expression, e.Canonical ∧ e.Fits limit s.depth ∧ e.shapes = n.shape :: rest.shapes ∧
      ∃ p firsts, e.print = .mark .lParen :: (p ++ rest.print) ∧
        WrittenUpTo p s.pending t.pending ∧ n.lines = firsts.map s.lineOf ∧
        e.partFirsts = behind 1 firsts ++ behind (1 + p.length) rest.partFirsts := by
  have two (p : List Sign) : p.length + 2 = 1 + (p ++ [Sign.mark .rParen]).length := by
    rw [List.length_append, List.length_singleton]
    omega
  rcases orElse_eq_matched h with h | ⟨u, hu, h⟩
  · obtain ⟨ty, hp, hn, hl, hroom⟩ := cast_sound hf h
    refine ⟨.cast ty rest, hrest, ⟨hroom, hfit⟩, by rw [hn]; rfl, _, ty.firsts, ?_, hp, hl, ?_⟩
    · rw [Expression.print, List.append_assoc]
      rfl
    · rw [Expression.partFirsts, two]
  · obtain ⟨hroom, hup⟩ := cast_eq_mismatch hu
    have hk := (keeps_cast limit).of_eq hu
    obtain ⟨inner, s₁, h₁, k₁⟩ := bind_eq_matched h
    obtain ⟨_, s₂, h₂, k₂⟩ := bind_eq_matched k₁
    obtain ⟨rfl, rfl⟩ := pure_eq_matched k₂
    obtain ⟨e, he, hp, hn, -, hl, hinner⟩ := expression_sound_of (hk.faithful hf)
      (fun v hv => hoperands v (Nat.le_trans hv hk.left_le)) h₁
    have hclose := hp.trans (expect_sound (by simp) h₂)
    rw [hup] at hclose
    rw [hk.depth] at hinner
    rw [hk.lineOf_eq hup] at hl
    refine ⟨.group e rest, ⟨fun ls hls hty => ?_, he, hrest⟩, ⟨hroom, hinner, hfit⟩,
      by rw [hn]; rfl, _, e.firsts, ?_, hclose, hl, by rw [Expression.partFirsts, two]; rfl⟩
    · -- a type would have been read as a cast
      rw [hls, Expression.print_ofLeaves] at hclose
      have hcast : WrittenUpTo ((⟨ls, hty⟩ : TypeName).print ++ [.mark .rParen]) s.pending
          t.pending := hclose
      obtain ⟨m, v, hm, -⟩ := cast_complete hroom hf hcast
      simp [hm] at hu
    · rw [Expression.print, List.append_assoc]
      rfl

theorem operands_sound (limit : Option Nat) (s : State) (hf : s.interner.Faithful) :
    OperandsSound limit s := by
  -- by the tokens left: what is behind a group is an expression as well
  induction hn : s.left using Nat.strongRecOn generalizing s with
  | ind n ih =>
    subst hn
    have ih (t : State) (ht : t.left < s.left) (hf : t.interner.Faithful) := ih t.left ht t hf rfl
    intro d d' t h
    rw [operands_eq] at h
    split at h
    · next hp =>
      obtain ⟨rfl, rfl⟩ := pure_eq_matched h
      exact ⟨.nil, trivial, .nil _, .refl _, State.isEnd_pending_iff.mpr hp, .refl _, trivial⟩
    · simp at h
    · next hp =>
      have hs := TokenKind.ne_eof_of_operand hp
      obtain ⟨x, rest, hx, hxk⟩ := State.exists_pending (s := s) rfl hs
      have hk := State.kept_addLeaf d hs
      obtain ⟨e, he, hw, hd, hend, hg, hfit⟩ :=
        ih _ (State.left_addLeaf_lt d hs) (hk.faithful hf) _ _ _ h
      rw [State.pending_addLeaf d hx] at hw
      rw [State.map_lineOf_addLeaf] at hg
      rw [hk.depth] at hfit
      have hop : IsOperand x.kind := by
        rwa [← TokenKind.operand_iff (State.kind_ne_newline hx), hxk]
      refine ⟨.leaf (.ofToken x) e, ⟨hop, he⟩, ?_, (s.extends_addLeaf d hf hx).trans hd, hend,
        (s.gains_addLeaf d).trans hg, hfit⟩
      rw [hx]
      exact .cons rfl hw
    · next hp =>
      have hs := TokenKind.ne_eof_of_group hp
      have hlt : s.skip.left < s.left := State.left_skip_lt hs
      obtain ⟨x, rest, hx, hxk⟩ := State.exists_pending (s := s) rfl hs
      obtain ⟨d₂, s₂, h₂, k₂⟩ := bind_eq_matched h
      have hk := (State.kept_skip hs).trans ((keeps_inner limit d).of_eq h₂)
      obtain ⟨inner, s₁, h₁, k₁⟩ := bind_eq_matched h₂
      obtain ⟨rfl, rfl⟩ := step_eq_matched k₁
      have hl := ((keeps_inner limit d).of_eq h₂).left_le
      -- first the tokens behind the group, since the tree of the group is put before theirs
      obtain ⟨rest, hrest, hw, hd, hend, hg, hfit⟩ := ih _ (by omega) (hk.faithful hf) _ _ _ k₂
      rw [hk.depth] at hfit
      obtain ⟨e, he, hefit, hes, p, firsts, hep, hpw, hlines, hfirsts⟩ := inner_sound (s := s.skip)
        hf (fun u hu => ih u (by omega)) h₁ rest hrest hfit
      refine ⟨e, he, ?_, ?_, hend, ?_, hefit⟩
      · rw [hep, hx]
        refine .cons (hxk.trans (TokenKind.group_iff.mp hp)) (WrittenUpTo.trans ?_ hw)
        rwa [← State.pending_skip hx]
      · rw [hes]
        exact (Draft.Extends.push d inner).trans hd
      · have hkept := ((keeps_cast limit).orElse (keeps_group limit)).of_eq h₁
        have hrestLines : rest.partFirsts.map s₁.lineOf =
            (behind (1 + p.length) rest.partFirsts).map s.lineOf := by
          rw [hkept.map_lineOf hpw, State.map_lineOf_skip, behind_behind]
        have hgains := (Draft.Gains.push d inner).trans hg
        rw [hlines, State.map_lineOf_skip] at hgains
        rw [hfirsts, List.map_append, ← hrestLines]
        exact hgains

theorem expression_sound (hf : s.interner.Faithful) (h : expression limit s = ⟨.matched n, t⟩) :
    ∃ e : Expression, e.Canonical ∧ WrittenUpTo e.print s.pending t.pending ∧
      n.shape = e.shape ∧ IsEnd t.pending ∧ n.lines = e.firsts.map s.lineOf ∧
      e.Fits limit (s.depth + 1) :=
  expression_sound_of hf (fun u _ hu => operands_sound limit u hu) h

/-- The operands that `e` has are read from `s` on, up to `rest`. -/
def OperandsRead (limit : Option Nat) (e : Expression) (s : State) (rest : List Token) : Prop :=
  ∀ d : Draft, ∃ (d' : Draft) (t : State), operands limit d s = operands limit d' t ∧ s.Kept t ∧
    t.pending = rest ∧ d.Extends e.shapes d'

theorem expression_of_operandsRead {e : Expression} {rest : List Token}
    (hroom : Room limit (s.depth + 1)) (hend : IsEnd rest)
    (h : OperandsRead limit e ((s.enter .expression).openNode .expression 4).2 rest) :
    ∃ n t, expression limit s = ⟨.matched n, t⟩ ∧ t.pending = rest ∧ n.shape = e.shape := by
  obtain ⟨d', t, ht, -, hp, hd⟩ := h ((s.enter .expression).openNode .expression 4).1
  have hclose : t.nextKind.expressionPart = .close := State.isEnd_pending_iff.mp (hp ▸ hend)
  have hm : operands limit d' t = ⟨.matched d', t⟩ := by rw [operands_eq, hclose]
  refine ⟨d'.close, { t with depth := t.depth - 1 }, ?_, hp, hd.shape_close⟩
  rw [expression_eq]
  apply tryRule_of_matched hroom
  refine (bind_of_matched rfl).trans ?_
  exact bind_of_matched (ht.trans hm)

theorem operandsRead_of_inner {e rest : Expression} {r : List Token} (hs : s.nextKind = .lParen)
    (h : (cast limit).orElse (group limit) s.skip = ⟨.matched n, t⟩)
    (hrest : ∀ u : State, s.Kept u → u.pending = t.pending → OperandsRead limit rest u r)
    (hshapes : e.shapes = n.shape :: rest.shapes) : OperandsRead limit e s r := by
  intro d
  have hinner : ((cast limit).orElse (group limit) >>= fun inner => append d inner) s.skip =
      ⟨.matched (d.push n), (t.append d n).2⟩ := bind_of_matched h
  have hk := (State.kept_skip (by simp [hs])).trans ((keeps_inner limit d).of_eq hinner)
  obtain ⟨d', u, hu, hku, hp, hd⟩ := hrest (t.append d n).2 hk rfl (d.push n)
  refine ⟨d', u, ?_, hk.trans hku, hp, ?_⟩
  · rw [operands_eq, TokenKind.group_iff.mpr hs]
    exact (bind_of_matched hinner).trans hu
  · rw [hshapes]
    exact (Draft.Extends.push d n).trans hd

/-- A group whose text is not that of a type is no cast. -/
theorem cast_mismatch_of_group {e : Expression} {rest : List Token} (he : e.Canonical)
    (hty : ∀ ls, e = .ofLeaves ls → ¬IsType (ls.map Leaf.kind)) (hroom : Room limit (s.depth + 2))
    (hf : s.interner.Faithful) (h : WrittenUpTo (e.print ++ [.mark .rParen]) s.pending rest) :
    ∃ t, cast limit s = ⟨.mismatch, t⟩ := by
  rcases hc : cast limit s with ⟨n | _ | er, t⟩
  · obtain ⟨ty, hp, -⟩ := cast_sound hf hc
    obtain ⟨m, hm, hclose⟩ := h.split
    obtain ⟨m', hm', hclose'⟩ := hp.split
    have hls : ∀ l ∈ ty.leaves, IsOperand l.kind := fun l hl =>
      isOperand_of_isTypePart (ty.isType.isTypePart_of_mem (List.mem_map_of_mem hl))
    have := Expression.eq_ofLeaves he hls hm hm' (isEnd_of_written (.inr rfl) hclose)
      (isEnd_of_written (.inr rfl) hclose')
    exact absurd ty.isType (hty _ this)
  · exact ⟨t, rfl⟩
  · exact absurd hc (mild_cast limit s hroom er t)

theorem inner_complete {e : Expression} {rest : List Token} (he : e.Canonical)
    (hty : ∀ ls, e = .ofLeaves ls → ¬IsType (ls.map Leaf.kind)) (hroom : Room limit (s.depth + 2))
    (hfit : e.Fits limit (s.depth + 1)) (hf : s.interner.Faithful)
    (hread : ∀ {u : State} {r : List Token}, e.Fits limit u.depth → u.interner.Faithful →
      WrittenUpTo e.print u.pending r → OperandsRead limit e u r)
    (h : WrittenUpTo (e.print ++ [.mark .rParen]) s.pending rest) :
    ∃ n t, (cast limit).orElse (group limit) s = ⟨.matched n, t⟩ ∧ t.pending = rest ∧
      n.shape = e.shape := by
  obtain ⟨u, hu⟩ := cast_mismatch_of_group he hty hroom hf h
  obtain ⟨-, hup⟩ := cast_eq_mismatch hu
  have hk := (keeps_cast limit).of_eq hu
  rw [← hup] at h
  rw [← hk.depth] at hroom hfit
  obtain ⟨m, hinner, hclose⟩ := h.split
  have hoperands := hread (u := ((u.enter .expression).openNode .expression 4).2) hfit
    (hk.faithful hf) hinner
  obtain ⟨n, t, ht, hp, hn⟩ := expression_of_operandsRead (hroom.mono (by omega))
    (isEnd_of_written (.inr rfl) hclose) hoperands
  obtain ⟨hexp, hskip⟩ := expect_complete (hp ▸ hclose)
  have hg : group limit u = ⟨.matched n, t.skip⟩ :=
    (bind_of_matched ht).trans (bind_of_matched hexp)
  exact ⟨n, t.skip, (orElse_of_mismatch hu).trans hg, hskip, hn⟩

theorem uncons_lParen {p q : List Sign} {rest : List Token}
    (h : WrittenUpTo (.mark .lParen :: (p ++ .mark .rParen :: q)) s.pending rest) :
    s.nextKind = .lParen ∧ ∃ m, WrittenUpTo (p ++ [.mark .rParen]) s.skip.pending m ∧
      WrittenUpTo q m rest := by
  obtain ⟨x, m, hx, hl, hm⟩ := h.uncons
  refine ⟨(State.nextKind_of_pending hx).trans hl, ?_⟩
  rw [State.pending_skip hx]
  apply WrittenUpTo.split
  simpa using hm

/-- Every canonical expression for whose parentheses there is room is read as it is written. -/
theorem operands_complete {e : Expression} (he : e.Canonical) :
    ∀ {s : State} {rest : List Token}, e.Fits limit s.depth → s.interner.Faithful →
      WrittenUpTo e.print s.pending rest → OperandsRead limit e s rest := by
  induction e with
  | nil =>
    intro s rest _ _ h d
    exact ⟨d, s, rfl, .refl s, h.eq_of_nil, .refl d⟩
  | leaf l e ih =>
    intro s rest hfit hf h d
    obtain ⟨x, m, hx, hl, hm⟩ := WrittenUpTo.uncons h
    have hk := State.kept_addLeaf d (State.nextKind_ne_eof hx)
    have hop : s.nextKind.expressionPart = .operand := by
      rw [State.nextKind_of_pending hx, TokenKind.operand_iff (State.kind_ne_newline hx), hl.kind_eq]
      exact he.1
    obtain ⟨d', t, ht, hkt, hp, hd⟩ := ih he.2 (s := (s.addLeaf d).2) (by rwa [hk.depth])
      (hk.faithful hf) (by rwa [State.pending_addLeaf d hx]) (s.addLeaf d).1
    refine ⟨d', t, ?_, hk.trans hkt, hp, ?_⟩
    · rw [operands_eq, hop]
      exact ht
    · have hleaf := s.extends_addLeaf d hf hx
      rw [show Leaf.ofToken x = l from hl] at hleaf
      exact hleaf.trans hd
  | cast ty e ih =>
    intro s rest hfit hf h
    obtain ⟨hl, m, hty, hrest⟩ := uncons_lParen (p := ty.print) h
    -- a type between parentheses is taken for a cast, whatever comes behind them
    obtain ⟨n, t, ht, rfl, hn⟩ := cast_complete (s := s.skip) hfit.1 hf hty
    refine operandsRead_of_inner hl (orElse_of_matched ht)
      (fun u hu hp => ih he (by rw [hu.depth]; exact hfit.2) (hu.faithful hf) (by rwa [hp])) ?_
    rw [hn, Expression.shapes]
  | group inner e ihi ihr =>
    intro s rest hfit hf h
    obtain ⟨hl, m, hgroup, hrest⟩ := uncons_lParen (p := inner.print) h
    obtain ⟨n, t, ht, rfl, hn⟩ :=
      inner_complete he.2.1 he.1 (s := s.skip) hfit.1 hfit.2.1 hf (ihi he.2.1) hgroup
    refine operandsRead_of_inner hl ht
      (fun u hu hp => ihr he.2.2 (by rw [hu.depth]; exact hfit.2.2) (hu.faithful hf) (by rwa [hp])) ?_
    rw [hn, Expression.shapes]
    rfl

/-- Every canonical expression before its end is read as a whole. -/
theorem expression_complete {e : Expression} (he : e.Canonical) {rest : List Token}
    (hroom : Room limit (s.depth + 1)) (hfit : e.Fits limit (s.depth + 1))
    (hf : s.interner.Faithful) (h : WrittenUpTo e.print s.pending rest) (hend : IsEnd rest) :
    ∃ n t, expression limit s = ⟨.matched n, t⟩ ∧ t.pending = rest ∧ n.shape = e.shape :=
  expression_of_operandsRead hroom hend
    (operands_complete he (s := ((s.enter .expression).openNode .expression 4).2) hfit hf h)

end Parser

end MiniC
