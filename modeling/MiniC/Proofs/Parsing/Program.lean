import MiniC.Proofs.Parsing.Limit
import MiniC.Proofs.Parsing.Unit
import Mathlib.Data.List.TakeWhile

namespace MiniC

open Syntax Grammar

/-- The tokens that a parse reads: all but newlines, before the first of kind `eof`. -/
def programTokens (tokens : List Token) : List Token :=
  (tokens.filter (·.isSignificant)).takeWhile (·.kind != .eof)

def programKinds (tokens : List Token) : Word := (programTokens tokens).map Token.kind

theorem programTokens_of_noEof {tokens : List Token} (h : ∀ t ∈ tokens, t.kind ≠ .eof) :
    programTokens tokens = tokens.filter (·.isSignificant) := by
  refine List.takeWhile_eq_self_iff.mpr fun t ht => ?_
  simpa using h t (List.mem_filter.mp ht).1

namespace Parser

variable {limit : Option Nat} {s t : State} {d d' : Draft} {n : Node}

theorem unitItems_sound (d : Draft) (s : State) :
    ∀ (d' : Draft) (t : State), s.interner.Faithful → unitItems limit d s = ⟨.matched d', t⟩ →
      ∃ u : TranslationUnit, u.Canonical ∧ Written u.print s.pending ∧
        d.Extends (u.map Item.shape) d' ∧
        d.Gains ((rowFirsts Item.print Item.firsts u).map s.lineOf) d' ∧
        ∀ i ∈ u, i.Fits limit s.depth := by
  fun_induction unitItems limit d s with
  | case1 d s hk =>
    intro d' t hf h
    obtain ⟨rfl, rfl⟩ := pure_eq_matched h
    rw [State.pending_eq_nil_iff.mpr hk]
    exact ⟨[], by simp [TranslationUnit.Canonical], .nil, .refl _, .refl _, by simp⟩
  | case2 d s _ item u hu pushed ih =>
    intro d' t hf h
    have hk := ((keeps_topLevel limit).of_eq hu).trans (State.kept_append u d item)
    obtain ⟨i, hi, hiw, hn, hl, hfit⟩ := topLevel_sound hf hu
    obtain ⟨is, his, hw, hd, hg, hfits⟩ := ih d' t (hk.faithful hf) h
    rw [hk.depth] at hfits
    rw [hk.map_lineOf hiw] at hg
    obtain ⟨v, hv, hp⟩ := hiw
    refine ⟨i :: is, ?_, ?_, ?_, ?_, by simpa using ⟨hfit, hfits⟩⟩
    · simpa [TranslationUnit.Canonical] using ⟨hi, his⟩
    · rw [hp, TranslationUnit.print, List.flatMap_cons]
      exact hv.append hw
    · rw [List.map_cons, ← hn]
      exact (Draft.Extends.push d item).trans hd
    · rw [rowFirsts, List.map_append, ← hl]
      exact (Draft.Gains.push d item).trans hg
  | case3 => simp [rejectUnit]
  | case4 => simp

theorem unitItems_of_item {item : Node} (d : Draft) (hs : s.nextKind ≠ .eof)
    (h : topLevel limit s = ⟨.matched item, t⟩) :
    unitItems limit d s = unitItems limit (d.push item) (t.append d item).2 := by
  rw [unitItems_eq, if_neg hs]
  refine (bind_of_matched ?_).trans rfl
  exact bind_of_matched (orElse_of_matched h)

theorem unitItems_of_mismatch (d : Draft) (hs : s.nextKind ≠ .eof)
    (h : topLevel limit s = ⟨.mismatch, t⟩) : unitItems limit d s = rejectUnit t := by
  have hreject : (topLevel limit).orElse rejectUnit s = rejectUnit t := orElse_of_mismatch h
  rw [unitItems_eq, if_neg hs]
  exact bind_of_fatal (bind_of_fatal hreject)

theorem unitItems_of_fatal {e : ParseError} (d : Draft) (hs : s.nextKind ≠ .eof)
    (h : topLevel limit s = ⟨.fatal e, t⟩) : unitItems limit d s = ⟨.fatal e, t⟩ := by
  rw [unitItems_eq, if_neg hs]
  exact bind_of_fatal (bind_of_fatal (orElse_of_fatal h))

theorem unitItems_read {u : TranslationUnit} (hu : u.Canonical) :
    ∀ {s : State} {rest : List Token} (d : Draft), Room limit (s.depth + 4) →
      (∀ i ∈ u, i.Fits limit s.depth) → s.interner.Faithful →
      WrittenUpTo u.print s.pending rest →
      ∃ d' t, unitItems limit d s = unitItems limit d' t ∧ s.Kept t ∧ t.pending = rest ∧
        d.Extends (u.map Item.shape) d' := by
  induction u with
  | nil => exact fun {s rest} d _ _ _ h => ⟨d, s, rfl, .refl s, h.eq_of_nil, .refl d⟩
  | cons i u ih =>
    intro s rest d hroom hfit hf h
    obtain ⟨m, hi, hm⟩ := WrittenUpTo.split (p := i.print) h
    have hcan := hu i (by simp)
    obtain ⟨n, t, ht, rfl, hn⟩ := topLevel_complete hcan hroom (hfit i (by simp)) hf hi
    have hk := ((keeps_topLevel limit).of_eq ht).trans (State.kept_append t d n)
    obtain ⟨d', t', ht', hkt', hp, hd⟩ := ih (fun j hj => hu j (by simp [hj]))
      (s := (t.append d n).2) (d.push n) (by rwa [hk.depth])
      (fun j hj => by rw [hk.depth]; exact hfit j (by simp [hj])) (hk.faithful hf) hm
    have hne : s.nextKind ≠ .eof := by
      obtain ⟨k, w, hw, -⟩ := hcan.isItem.head_typePart
      have hkinds := State.kinds_of_written hi
      rw [hw] at hkinds
      obtain ⟨x, l, hx, -⟩ := State.exists_kinds hkinds
      exact State.nextKind_ne_eof hx
    refine ⟨d', t', ?_, hk.trans hkt', hp, ?_⟩
    · exact (unitItems_of_item d hne ht).trans ht'
    · rw [List.map_cons, ← hn]
      exact (Draft.Extends.push d n).trans hd

theorem unitItems_complete {u : TranslationUnit} (hu : u.Canonical) (d : Draft)
    (hroom : Room limit (s.depth + 4)) (hfit : ∀ i ∈ u, i.Fits limit s.depth)
    (hf : s.interner.Faithful) (h : Written u.print s.pending) :
    ∃ d' t, unitItems limit d s = ⟨.matched d', t⟩ ∧ d.Extends (u.map Item.shape) d' := by
  obtain ⟨d', t, ht, -, hp, hd⟩ := unitItems_read hu d hroom hfit hf
    ⟨s.pending, h, (List.append_nil _).symm⟩
  have hend : unitItems limit d' t = ⟨.matched d', t⟩ := by
    rw [unitItems_eq, if_pos (State.pending_eq_nil_iff.mp hp)]
  exact ⟨d', t, ht.trans hend, hd⟩

theorem isLongestStart_nil (hf : s.interner.Faithful)
    (h : ∀ n t, topLevel none s ≠ ⟨.matched n, t⟩) :
    IsLongestStart (Repeated IsItem) [] s.kinds := by
  refine ⟨.nil _, List.nil_prefix, fun v hv hp => ?_⟩
  obtain ⟨ws, hws, rfl⟩ := hv
  cases ws with
  | nil => simp
  | cons i ws =>
    obtain ⟨z, hz⟩ := hp
    rw [List.flatten_cons, List.append_assoc] at hz
    obtain ⟨n, t, ht, -⟩ := topLevel_of_kinds (hws i (by simp)) hf hz.symm
    exact absurd ht (h n t)

theorem isLongestStart_append {i v w : Word} (hf : s.interner.Faithful) (hi : IsItem i)
    (h : s.kinds = i ++ w) (hv : IsLongestStart (Repeated IsItem) v w) :
    IsLongestStart (Repeated IsItem) (i ++ v) s.kinds := by
  refine ⟨hv.holds.cons hi, ?_, fun v' hv' hp => ?_⟩
  · rw [h]
    exact (List.prefix_append_right_inj i).mpr hv.start
  · obtain ⟨ws, hws, rfl⟩ := hv'
    cases ws with
    | nil => simp
    | cons j ws =>
      obtain ⟨z, hz⟩ := hp
      rw [List.flatten_cons, List.append_assoc] at hz
      have hw : w = ws.flatten ++ z :=
        item_rest_unique hf hi (hws j (by simp)) h hz.symm
      have hlen : ws.flatten.length ≤ v.length :=
        hv.longest _ ⟨ws, fun u hu => hws u (by simp [hu]), rfl⟩ ⟨z, hw.symm⟩
      have htotal := congrArg List.length (hz.trans h)
      rw [hw] at htotal
      simp only [List.length_append, List.flatten_cons] at htotal ⊢
      omega

theorem unitItems_ne_mismatch (limit : Option Nat) (d : Draft) (s : State) :
    ∀ t, unitItems limit d s ≠ ⟨.mismatch, t⟩ := by
  fun_induction unitItems limit d s with
  | case1 => simp
  | case2 d s _ item u hu pushed ih => exact ih
  | case3 => simp [rejectUnit]
  | case4 => simp

theorem unitItems_of_unit_fatal {e : ParseError} (h : translationUnit limit s = ⟨.fatal e, t⟩) :
    unitItems limit (.empty .translationUnit s.nextLine 4) (s.openNode .translationUnit 4).2 =
      ⟨.fatal e, t⟩ := by
  rcases bind_eq_fatal h with h | ⟨d, s₁, h₁, h⟩
  · simp [openNode, step] at h
  obtain ⟨rfl, rfl⟩ := step_eq_matched h₁
  rcases bind_eq_fatal h with h | ⟨d', s₂, -, h⟩
  · exact h
  · rcases bind_eq_fatal h with h | ⟨_, s₃, -, h⟩
    · simp [record, step] at h
    · simp [pure_apply] at h

theorem translationUnit_cases (limit : Option Nat) (s : State) :
    (∃ d t, unitItems limit (s.openNode .translationUnit 4).1 (s.openNode .translationUnit 4).2 =
        ⟨.matched d, t⟩ ∧ translationUnit limit s =
          ⟨.matched d.close, t.record (.unitParsed d.children.size t.reader.line)⟩) ∨
      ∃ e t, unitItems limit (s.openNode .translationUnit 4).1
          (s.openNode .translationUnit 4).2 = ⟨.fatal e, t⟩ ∧
        translationUnit limit s = ⟨.fatal e, t⟩ := by
  let opened := s.openNode .translationUnit 4
  rcases hr : unitItems limit opened.1 opened.2 with ⟨d | _ | e, t⟩
  · exact .inl ⟨d, t, rfl, (bind_of_matched rfl).trans ((bind_of_matched hr).trans rfl)⟩
  · exact absurd hr (unitItems_ne_mismatch limit opened.1 opened.2 t)
  · exact .inr ⟨e, t, rfl, (bind_of_matched rfl).trans (bind_of_fatal hr)⟩

theorem translationUnit_ne_mismatch : translationUnit limit s ≠ ⟨.mismatch, t⟩ := by
  obtain ⟨d, u, -, h⟩ | ⟨e, u, -, h⟩ := translationUnit_cases limit s <;> simp [h]

theorem nextKind_ne_eof_of_unit_fatal {e : ParseError} (h : translationUnit limit s = ⟨.fatal e, t⟩) :
    s.nextKind ≠ .eof := by
  intro hk
  have hitems := unitItems_of_unit_fatal h
  rw [unitItems_eq, if_pos (show (s.openNode .translationUnit 4).2.nextKind = .eof from hk)] at hitems
  simp at hitems

/-- What is read as a translation unit is one: which lines its nodes are on, and that there was room
for all of it. -/
theorem translationUnit_reads (hf : s.interner.Faithful)
    (h : translationUnit limit s = ⟨.matched n, t⟩) :
    ∃ u : TranslationUnit, u.Canonical ∧ Written u.print s.pending ∧ n.shape = u.shape ∧
      n.lines = u.firsts.map s.lineOf ∧ ∀ i ∈ u, i.Fits limit s.depth := by
  obtain ⟨d, s₁, h₁, k₁⟩ := bind_eq_matched h
  obtain ⟨d', s₂, h₂, k₂⟩ := bind_eq_matched k₁
  obtain ⟨_, s₃, -, k₃⟩ := bind_eq_matched k₂
  obtain ⟨rfl, rfl⟩ := step_eq_matched h₁
  obtain ⟨rfl, rfl⟩ := pure_eq_matched k₃
  obtain ⟨u, hu, hw, hd, hg, hfits⟩ :=
    unitItems_sound _ (s.openNode .translationUnit 4).2 _ _ hf h₂
  refine ⟨u, hu, hw, hd.shape_close, ?_, hfits⟩
  rw [hg.lines_close, TranslationUnit.firsts, List.map_cons, State.lineOf_zero]
  rfl

theorem translationUnit_sound (hf : s.interner.Faithful)
    (h : translationUnit limit s = ⟨.matched n, t⟩) :
    ∃ u : TranslationUnit, u.Canonical ∧ Written u.print s.pending ∧ n.shape = u.shape := by
  obtain ⟨u, hu, hw, hn, -⟩ := translationUnit_reads hf h
  exact ⟨u, hu, hw, hn⟩

theorem translationUnit_complete {u : TranslationUnit} (hu : u.Canonical)
    (hroom : Room limit (s.depth + 4)) (hfit : ∀ i ∈ u, i.Fits limit s.depth)
    (hf : s.interner.Faithful) (h : Written u.print s.pending) :
    ∃ n, (translationUnit limit s).outcome = .matched n ∧ n.shape = u.shape := by
  obtain ⟨d', t, ht, hd⟩ := unitItems_complete hu (s := (s.openNode .translationUnit 4).2)
    (.empty .translationUnit s.nextLine 4) hroom hfit hf h
  have hm : translationUnit limit s = ⟨.matched d'.close, _⟩ :=
    (bind_of_matched rfl).trans ((bind_of_matched ht).trans rfl)
  exact ⟨d'.close, by rw [hm], hd.shape_close⟩

end Parser

theorem room_nestingLimit_iff {m : Nat} : Room (some nestingLimit) m ↔ m ≤ 256 :=
  ⟨fun h => h nestingLimit rfl, fun h _ hl => Option.some.inj hl ▸ h⟩

theorem room_nestingLimit : Room (some nestingLimit) 4 :=
  room_nestingLimit_iff.mpr (by decide)

namespace Syntax

theorem Expression.fits_iff {e : Expression} {b p : Nat} :
    e.Fits (some nestingLimit) (4 + b + p) ↔ e.NestsWithin b p := by
  have room_iff (p : Nat) : Room (some nestingLimit) (4 + b + p + 2) ↔ b + p ≤ 250 := by
    rw [room_nestingLimit_iff]
    omega
  induction e generalizing p with
  | nil => exact Iff.rfl
  | leaf l rest ih => exact ih
  | cast ty rest ih => exact and_congr (room_iff p) ih
  | group inner rest ihi ihr => exact and_congr (room_iff p) (and_congr (ihi (p := p + 1)) ihr)

theorem Statement.NestsWithin.fits {st : Statement} {b : Nat} (h : st.NestsWithin b) :
    st.Fits (some nestingLimit) (2 + b) := by
  induction h with
  | compound hb _ ih => exact .compound (room_nestingLimit_iff.mpr (by omega)) ih
  | @ret b _ _ hb he =>
    refine .ret (room_nestingLimit_iff.mpr (by omega)) ?_
    rw [show 2 + b + 2 = 4 + b + 0 by omega]
    exact Expression.fits_iff.mpr he
  | @expression b _ hb he =>
    refine .expression (room_nestingLimit_iff.mpr (by omega)) ?_
    rw [show 2 + b + 2 = 4 + b + 0 by omega]
    exact Expression.fits_iff.mpr he

theorem Statement.Fits.nestsWithin {st : Statement} {depth : Nat}
    (h : st.Fits (some nestingLimit) depth) : ∀ {b : Nat}, depth = 2 + b → st.NestsWithin b := by
  induction h with
  | compound hroom _ ih =>
    rintro b rfl
    have hle := room_nestingLimit_iff.mp hroom
    exact .compound (by omega) fun s hs => ih s hs (by omega)
  | ret hroom he =>
    rintro b rfl
    have hle := room_nestingLimit_iff.mp hroom
    rw [show 2 + b + 2 = 4 + b + 0 by omega] at he
    exact .ret (by omega) (Expression.fits_iff.mp he)
  | expression hroom he =>
    rintro b rfl
    have hle := room_nestingLimit_iff.mp hroom
    rw [show 2 + b + 2 = 4 + b + 0 by omega] at he
    exact .expression (by omega) (Expression.fits_iff.mp he)

theorem Item.fits_iff {i : Item} : i.Fits (some nestingLimit) 0 ↔ i.NestsWithin := by
  cases i with
  | function g body =>
    refine forall₂_congr fun x _ => ?_
    cases x with
    | definition v => exact Iff.rfl
    | statement st => exact ⟨fun h => Statement.Fits.nestsWithin h rfl, Statement.NestsWithin.fits⟩
  | _ => exact Iff.rfl

theorem Item.NestsWithin.fits {i : Item} (h : i.NestsWithin) : i.Fits (some nestingLimit) 0 :=
  Item.fits_iff.mpr h

end Syntax

namespace Syntax

def intType : TypeName where
  leaves := [⟨.kwInt, none⟩]
  isType := .intro (.inl rfl) (.inl rfl) (.inl rfl) (by rfl : TokenKind.kwInt.isBase = true)
    (.inl rfl) (.inl rfl) (.inl rfl)

/-- `int f() { return (int)(x + 1); }` -/
def sampleUnit : TranslationUnit :=
  [.function ⟨⟨intType, some "f"⟩, []⟩ [.statement (.ret none (.cast intType (.group
    (.leaf ⟨.ident, some "x"⟩ (.leaf ⟨.plus, none⟩ (.leaf ⟨.literalInt, none⟩ .nil))) .nil)))]]

/-- The sample over three lines. -/
def sampleTokens : List Token :=
  [.plain .kwInt, .ident "f", .plain .lParen, .plain .rParen, .plain .lBrace, .newline,
    .plain .kwReturn, .plain .lParen, .plain .kwInt, .plain .rParen, .plain .lParen, .ident "x",
    .plain .plus, .int 1, .plain .rParen, .plain .semicolon, .newline, .plain .rBrace]

theorem written_sample : Written sampleUnit.print (sampleTokens.filter (·.isSignificant)) := by
  repeat' constructor

theorem sampleUnit_canonical : sampleUnit.Canonical := by
  intro i hi
  obtain rfl := List.mem_singleton.mp hi
  intro x hx
  obtain rfl := List.mem_singleton.mp hx
  refine ⟨.ret ⟨fun ls hls hty => ?_, ⟨by decide, by decide, by decide, trivial⟩, trivial⟩, by simp⟩
  cases ls with
  | nil => simp [Expression.ofLeaves] at hls
  | cons l ls =>
    obtain ⟨rfl, -⟩ := Expression.leaf.inj hls
    exact absurd (hty.isTypePart_of_mem (List.mem_cons_self ..)) (by decide)

theorem sampleUnit_nestsWithin : sampleUnit.NestsWithin := by
  intro i hi
  obtain rfl := List.mem_singleton.mp hi
  intro x hx
  obtain rfl := List.mem_singleton.mp hx
  exact .ret (by decide) ⟨by decide, by decide, trivial, trivial⟩

end Syntax

theorem Syntax.TranslationUnit.Canonical.programTokens_eq {u : TranslationUnit} (hu : u.Canonical)
    {tokens : List Token} (h : Written u.print (tokens.filter (·.isSignificant))) :
    programTokens tokens = tokens.filter (·.isSignificant) := by
  refine List.takeWhile_eq_self_iff.mpr fun x hx => ?_
  have hk : x.kind ∈ u.print.map Sign.kind := by
    rw [← h.kinds]
    exact List.mem_map_of_mem hx
  have heof := hu.repeated_isItem.eof_notMem fun _ hv => hv.eof_notMem
  simp only [bne_iff_ne]
  intro he
  exact heof (he ▸ hk)

/-- The tree of every parse that succeeds is canonical and written by the tokens that were read: none
of them is lost, repeated or moved, and each leaf has the kind and the text of its token. -/
theorem parse_tree_written {tokens : List Token} {arena : Arena} {n : Node}
    (h : (parse tokens arena).outcome = .matched n) :
    ∃ u : TranslationUnit, n.shape = u.shape ∧ u.Canonical ∧
      Written u.print (programTokens tokens) := by
  obtain ⟨u, hu, hw, hn⟩ := Parser.translationUnit_sound (t := (parse tokens arena).final)
    (s := .start (Reader.ofTokens tokens .start) arena) Interner.faithful_empty (by rw [← h]; rfl)
  exact ⟨u, hn, hu, hw⟩

theorem parse_tree_written_sample :
    ∃ n, (parse sampleTokens (.ofCapacity .packed 4096)).outcome = .matched n ∧
      ∃ u : TranslationUnit, n.shape = u.shape ∧ u.Canonical ∧
        Written u.print (programTokens sampleTokens) := by
  have hw := written_sample
  rw [← sampleUnit_canonical.programTokens_eq hw] at hw
  obtain ⟨n, hn, -⟩ := Parser.translationUnit_complete sampleUnit_canonical
    (s := .start (Reader.ofTokens sampleTokens .start) (.ofCapacity .packed 4096))
    room_nestingLimit (fun i hi => (sampleUnit_nestsWithin i hi).fits) Interner.faithful_empty hw
  exact ⟨n, hn, parse_tree_written hn⟩

/-- Parsing undoes printing: whatever tokens write a canonical tree, with newlines anywhere between
them, are parsed to that tree if it is not nested too deeply. -/
theorem parse_of_written {u : TranslationUnit} {tokens : List Token} (arena : Arena)
    (hu : u.Canonical) (hnest : u.NestsWithin)
    (h : Written u.print (tokens.filter (·.isSignificant))) :
    ∃ n, (parse tokens arena).outcome = .matched n ∧ n.shape = u.shape := by
  rw [← hu.programTokens_eq h] at h
  exact Parser.translationUnit_complete hu (s := .start (Reader.ofTokens tokens .start) arena)
    room_nestingLimit (fun i hi => (hnest i hi).fits) Interner.faithful_empty h

theorem parse_of_written_sample :
    sampleUnit.Canonical ∧ sampleUnit.NestsWithin ∧
      Written sampleUnit.print (sampleTokens.filter (·.isSignificant)) ∧
      ∃ n, (parse sampleTokens (.ofCapacity .packed 4096)).outcome = .matched n ∧
        n.shape = sampleUnit.shape :=
  ⟨sampleUnit_canonical, sampleUnit_nestsWithin, written_sample,
    parse_of_written _ sampleUnit_canonical sampleUnit_nestsWithin written_sample⟩

end MiniC
