import MiniC.Proofs.Parsing.Lines

namespace MiniC

open Syntax Grammar

/-- On the way from `s` to `t` the tokens `v` were read, and the node got a leaf for each of them. -/
structure Collected (s : State) (d : Draft) (v : List Token) (t : State) (d' : Draft) : Prop where
  pending : s.pending = v ++ t.pending
  leaves : d.Extends (v.map fun x => (Leaf.ofToken x).shape) d'
  lines : d.Gains ((List.range v.length).map s.lineOf) d'
  lineOf (k : Nat) : t.lineOf k = s.lineOf (v.length + k)
  faithful : t.interner.Faithful

namespace Collected

theorem refl {s : State} (hf : s.interner.Faithful) (d : Draft) : Collected s d [] s d :=
  ⟨rfl, .refl d, .refl d, fun k => by simp, hf⟩

theorem trans {s t u : State} {d d' d'' : Draft} {v w : List Token} (h : Collected s d v t d')
    (k : Collected t d' w u d'') : Collected s d (v ++ w) u d'' := by
  have hlines := h.lines.trans k.lines
  have hrange : (List.range v.length).map s.lineOf ++ (List.range w.length).map t.lineOf =
      (List.range (v ++ w).length).map s.lineOf := by
    rw [List.length_append, List.range_add, List.map_append, List.map_map]
    congr 1
    exact List.map_congr_left fun i _ => h.lineOf i
  rw [hrange] at hlines
  refine ⟨by rw [h.pending, k.pending, List.append_assoc], by simpa using h.leaves.trans k.leaves,
    hlines, fun i => ?_, k.faithful⟩
  rw [k.lineOf, h.lineOf, List.length_append, Nat.add_assoc]

theorem addLeaf {s : State} {x : Token} {rest : List Token} (d : Draft)
    (hf : s.interner.Faithful) (h : s.pending = x :: rest) :
    Collected s d [x] (s.addLeaf d).2 (s.addLeaf d).1 := by
  refine ⟨by rw [h, State.pending_addLeaf d h]; rfl, s.extends_addLeaf d hf h, s.gains_addLeaf d,
    fun k => ?_, (State.kept_addLeaf d (State.nextKind_ne_eof h)).faithful hf⟩
  rw [State.lineOf_addLeaf, Nat.add_comm]
  rfl

end Collected

namespace Parser

variable {limit : Option Nat} {s t : State} {d d' : Draft} {property : TokenKind → Bool}

theorem keeps_noQualifier : Keeps noQualifier := by
  intro s
  unfold noQualifier
  split
  · exact s.kept_record _
  · exact .refl s

theorem keeps_innerQualifier (qualified : Bool) (d : Draft) : Keeps (innerQualifier qualified d) := by
  unfold innerQualifier
  split
  · exact keeps_noQualifier.andThen fun _ => keeps_pure _
  · exact keeps_optionalLeaf rfl _

theorem kept_stars (d : Draft) (s : State) : s.Kept (stars d s).2 := by
  fun_induction stars d s with
  | case1 d s h pushed ih => exact (State.kept_addLeaf d (by simp [h])).trans ih
  | case2 d s => exact .refl s

theorem keeps_outerQualifier (d : Draft) : Keeps (outerQualifier d) := by
  intro s
  unfold outerQualifier
  split
  · exact ((keeps_requiredLeaf rfl d).andThen fun _ =>
      keeps_noQualifier.andThen fun _ => keeps_pure _) s
  · exact .refl s

theorem keeps_pointer (d : Draft) : Keeps (pointer d) := by
  intro s
  unfold pointer
  split
  · exact (Keeps.andThen (p := step (stars d)) (kept_stars d) keeps_outerQualifier) s
  · exact .refl s

theorem keeps_typeName (limit : Option Nat) : Keeps (typeName limit) := by
  refine Keeps.tryRule ?_ limit .type
  refine (keeps_openNode _ _).andThen fun _ => ?_
  refine (keeps_optionalLeaf rfl _).andThen fun _ => ?_
  refine keeps_nextKind.andThen fun _ => ?_
  refine (keeps_optionalLeaf rfl _).andThen fun _ => ?_
  refine (keeps_optionalLeaf rfl _).andThen fun _ => ?_
  refine (keeps_requiredLeaf rfl _).andThen fun _ => ?_
  refine (keeps_innerQualifier _ _).andThen fun _ => ?_
  exact (keeps_pointer _).andThen fun _ => keeps_pure _

theorem mild_noQualifier {k : Nat} : Mild limit k noQualifier := by
  refine .of_never fun s e t h => ?_
  unfold noQualifier at h
  split at h <;> simp at h

theorem mild_innerQualifier (qualified : Bool) (d : Draft) {k : Nat} :
    Mild limit k (innerQualifier qualified d) := by
  unfold innerQualifier
  split
  · exact Mild.andThen keeps_noQualifier mild_noQualifier fun _ => mild_pure _
  · exact mild_optionalLeaf _ _

theorem mild_pointer (d : Draft) {k : Nat} : Mild limit k (pointer d) := by
  have outer (d : Draft) : Mild limit k (outerQualifier d) := by
    intro s hr
    unfold outerQualifier
    split
    · exact Mild.andThen (keeps_requiredLeaf rfl d) (mild_requiredLeaf _ d)
        (fun _ => .andThen keeps_noQualifier mild_noQualifier fun _ => mild_pure _) s hr
    · simp
  intro s hr
  unfold pointer
  split
  · exact Mild.andThen (p := step (stars d)) (kept_stars d) (mild_step _) outer s hr
  · simp

theorem mild_typeName (limit : Option Nat) : Mild limit 1 (typeName limit) := by
  refine Mild.tryRule (k := 0) ?_ .type
  refine .andThen (keeps_openNode _ _) (mild_step _) fun _ => ?_
  refine .andThen (keeps_optionalLeaf rfl _) (mild_optionalLeaf _ _) fun _ => ?_
  refine .andThen keeps_nextKind (mild_step _) fun _ => ?_
  refine .andThen (keeps_optionalLeaf rfl _) (mild_optionalLeaf _ _) fun _ => ?_
  refine .andThen (keeps_optionalLeaf rfl _) (mild_optionalLeaf _ _) fun _ => ?_
  refine .andThen (keeps_requiredLeaf rfl _) (mild_requiredLeaf _ _) fun _ => ?_
  refine .andThen (keeps_innerQualifier _ _) (mild_innerQualifier _ _) fun _ => ?_
  exact .andThen (keeps_pointer _) (mild_pointer _) fun _ => mild_pure _

theorem requiredLeaf_eq_matched (hq : property .eof = false) (hf : s.interner.Faithful)
    (h : requiredLeaf property d s = ⟨.matched d', t⟩) :
    ∃ x, Collected s d [x] t d' ∧ property x.kind = true := by
  unfold requiredLeaf at h
  split at h
  · next hk =>
    obtain ⟨x, rest, hx, hxk⟩ := State.exists_pending (s := s) rfl fun he => by simp [he, hq] at hk
    obtain ⟨rfl, rfl⟩ := step_eq_matched h
    exact ⟨x, .addLeaf d hf hx, hxk ▸ hk⟩
  · simp at h

theorem optionalLeaf_eq_matched (hq : property .eof = false) (hf : s.interner.Faithful)
    (h : optionalLeaf property d s = ⟨.matched d', t⟩) :
    ∃ v, Collected s d v t d' ∧ Optional property (v.map Token.kind) := by
  unfold optionalLeaf at h
  split at h
  · next hk =>
    obtain ⟨x, rest, hx, hxk⟩ := State.exists_pending (s := s) rfl fun he => by simp [he, hq] at hk
    obtain ⟨rfl, rfl⟩ := step_eq_matched h
    exact ⟨[x], .addLeaf d hf hx, .inr ⟨x.kind, hxk ▸ hk, rfl⟩⟩
  · simp only [Result.mk.injEq, Outcome.matched.injEq] at h
    obtain ⟨rfl, rfl⟩ := h
    exact ⟨[], .refl hf d, .inl rfl⟩

theorem noQualifier_eq_matched {u : Unit} (h : noQualifier s = ⟨.matched u, t⟩) : t = s := by
  unfold noQualifier at h
  split at h
  · simp at h
  · exact (Result.mk.inj h).2.symm

theorem innerQualifier_eq_matched {qualified : Bool} (hf : s.interner.Faithful)
    (h : innerQualifier qualified d s = ⟨.matched d', t⟩) :
    ∃ v, Collected s d v t d' ∧ Optional TokenKind.isQualifier (v.map Token.kind) ∧
      (qualified = true → v = []) := by
  unfold innerQualifier at h
  split at h
  · obtain ⟨u, s₁, h₁, h₂⟩ := bind_eq_matched h
    obtain rfl := noQualifier_eq_matched h₁
    obtain ⟨rfl, rfl⟩ := pure_eq_matched h₂
    exact ⟨[], .refl hf _, .inl rfl, fun _ => rfl⟩
  · next hq =>
    obtain ⟨v, hv, ho⟩ := optionalLeaf_eq_matched rfl hf h
    exact ⟨v, hv, ho, fun hq' => absurd hq' hq⟩

theorem stars_collected (d : Draft) (s : State) (hf : s.interner.Faithful) :
    ∃ v, Collected s d v (stars d s).2 (stars d s).1 ∧
      v.map Token.kind = List.replicate v.length .star ∧ (stars d s).2.nextKind ≠ .star := by
  fun_induction stars d s with
  | case1 d s h pushed ih =>
    obtain ⟨x, rest, hx, hxk⟩ := State.exists_pending h (by simp)
    have hc := Collected.addLeaf d hf hx
    obtain ⟨v, hv, hk, hn⟩ := ih hc.faithful
    exact ⟨x :: v, hc.trans hv, by simp [hxk, hk, List.replicate_succ], hn⟩
  | case2 d s h => exact ⟨[], .refl hf d, rfl, h⟩

theorem outerQualifier_eq_matched (hf : s.interner.Faithful)
    (h : outerQualifier d s = ⟨.matched d', t⟩) :
    ∃ v, Collected s d v t d' ∧ Optional TokenKind.isQualifier (v.map Token.kind) := by
  unfold outerQualifier at h
  split at h
  · obtain ⟨d₁, s₁, h₁, k₁⟩ := bind_eq_matched h
    obtain ⟨u, s₂, h₂, k₂⟩ := bind_eq_matched k₁
    obtain rfl := noQualifier_eq_matched h₂
    obtain ⟨rfl, rfl⟩ := pure_eq_matched k₂
    obtain ⟨x, hx, hq⟩ := requiredLeaf_eq_matched rfl hf h₁
    exact ⟨[x], hx, .inr ⟨_, hq, rfl⟩⟩
  · simp only [Result.mk.injEq, Outcome.matched.injEq] at h
    obtain ⟨rfl, rfl⟩ := h
    exact ⟨[], .refl hf d, .inl rfl⟩

theorem pointer_eq_matched (hf : s.interner.Faithful) (h : pointer d s = ⟨.matched d', t⟩) :
    ∃ v, Collected s d v t d' ∧ IsPointer (v.map Token.kind) := by
  unfold pointer at h
  split at h
  · next hs =>
    obtain ⟨d₁, s₁, h₁, h⟩ := bind_eq_matched h
    obtain ⟨rfl, rfl⟩ := step_eq_matched h₁
    obtain ⟨v, hv, hk, hn⟩ := stars_collected d s hf
    obtain ⟨w, hw, hq⟩ := outerQualifier_eq_matched hv.faithful h
    refine ⟨v ++ w, hv.trans hw, .inr ⟨v.length - 1, w.map Token.kind, hq, ?_⟩⟩
    have hpos : v ≠ [] := by
      rintro rfl
      obtain ⟨x, rest, hx, hxk⟩ := State.exists_pending hs (by simp)
      have hp : (stars d s).2.pending = x :: rest := by rw [← hx, hv.pending]; rfl
      exact hn ((State.nextKind_of_pending hp).trans hxk)
    rw [List.map_append, hk, Nat.sub_add_cancel (List.length_pos_iff.mpr hpos)]
  · simp only [Result.mk.injEq, Outcome.matched.injEq] at h
    obtain ⟨rfl, rfl⟩ := h
    exact ⟨[], .refl hf d, .inl rfl⟩

/-- What is read as a type is one, and every token of it has a leaf. -/
theorem typeName_sound {n : Node} (hf : s.interner.Faithful)
    (h : typeName limit s = ⟨.matched n, t⟩) :
    ∃ ty : TypeName, WrittenUpTo ty.print s.pending t.pending ∧
      n.shape = ⟨.type, none, ty.shapes⟩ ∧ n.lines = ty.firsts.map s.lineOf := by
  obtain ⟨u, k, hu⟩ := tryRule_eq_matched h
  obtain ⟨d₀, s₀, h₀, k₀⟩ := bind_eq_matched k
  obtain ⟨d₁, s₁, h₁, k₁⟩ := bind_eq_matched k₀
  obtain ⟨q, s₂, h₂, k₂⟩ := bind_eq_matched k₁
  obtain ⟨d₃, s₃, h₃, k₃⟩ := bind_eq_matched k₂
  obtain ⟨d₄, s₄, h₄, k₄⟩ := bind_eq_matched k₃
  obtain ⟨d₅, s₅, h₅, k₅⟩ := bind_eq_matched k₄
  obtain ⟨d₆, s₆, h₆, k₆⟩ := bind_eq_matched k₅
  obtain ⟨d₇, s₇, h₇, k₇⟩ := bind_eq_matched k₆
  obtain ⟨rfl, rfl⟩ := step_eq_matched h₀
  obtain ⟨rfl, rfl⟩ := step_eq_matched h₂
  obtain ⟨rfl, rfl⟩ := pure_eq_matched k₇
  have hf₀ : ((s.enter .type).openNode .type 4).2.interner.Faithful := hf
  obtain ⟨storage, c₁, hstorage⟩ := optionalLeaf_eq_matched rfl hf₀ h₁
  obtain ⟨lead, c₃, hlead⟩ := optionalLeaf_eq_matched rfl c₁.faithful h₃
  obtain ⟨sign, c₄, hsign⟩ := optionalLeaf_eq_matched rfl c₃.faithful h₄
  obtain ⟨base, c₅, hbase⟩ := requiredLeaf_eq_matched rfl c₄.faithful h₅
  obtain ⟨inner, c₆, hinner, hone⟩ := innerQualifier_eq_matched c₅.faithful h₆
  obtain ⟨pointer, c₇, hpointer⟩ := pointer_eq_matched c₆.faithful h₇
  have hc := ((((c₁.trans c₃).trans c₄).trans c₅).trans c₆).trans c₇
  -- the parser looks for the first qualifier before it reads it
  have hone : lead.map Token.kind = [] ∨ inner.map Token.kind = [] := by
    rcases hlead with hl | ⟨q, hq, hl⟩
    · exact .inl hl
    · obtain ⟨x, rfl, rfl⟩ := List.map_eq_singleton_iff.mp hl
      rw [hone (by rwa [State.nextKind_of_pending c₃.pending])]
      exact .inr rfl
  have hw : IsType ((storage ++ lead ++ sign ++ [base] ++ inner ++ pointer).map Token.kind) := by
    simpa using IsType.intro hstorage hlead hsign hbase hinner hone hpointer
  refine ⟨.ofTokens _ hw, ⟨_, written_ofTokens _ hw, ?_⟩, ?_, ?_⟩
  · rw [hu]
    exact hc.pending
  · rw [hc.leaves.shape_close, TypeName.shapes, TypeName.ofTokens, List.map_map]
    rfl
  · rw [hc.lines.lines_close, TypeName.firsts, TypeName.ofTokens, List.length_map, List.map_cons,
      State.lineOf_zero]
    rfl

theorem requiredLeaf_of_kinds (d : Draft) {k : TokenKind} {r : Word} (h : s.kinds = k :: r)
    (hk : property k = true) :
    ∃ d' t, requiredLeaf property d s = ⟨.matched d', t⟩ ∧ t.kinds = r := by
  refine ⟨(s.addLeaf d).1, (s.addLeaf d).2, ?_, State.kinds_addLeaf d h⟩
  rw [requiredLeaf, if_pos (by rwa [State.nextKind_of_kinds h])]
  rfl

theorem optionalLeaf_of_kinds (hq : property .eof = false) (d : Draft) {v r : Word}
    (h : s.kinds = v ++ r) (hv : Optional property v) (hr : ∀ k ∈ r.head?, property k = false) :
    ∃ d' t, optionalLeaf property d s = ⟨.matched d', t⟩ ∧ t.kinds = r := by
  rcases hv with rfl | ⟨k, hk, rfl⟩
  · have hn := State.property_nextKind_eq_false hq (by rwa [h])
    exact ⟨d, s, by rw [optionalLeaf, if_neg (by simp [hn])], h⟩
  · refine ⟨(s.addLeaf d).1, (s.addLeaf d).2, ?_, State.kinds_addLeaf d h⟩
    rw [optionalLeaf, if_pos (by rwa [State.nextKind_of_kinds h])]
    rfl

theorem noQualifier_of_kinds (h : ∀ k ∈ s.kinds.head?, k.isQualifier = false) :
    noQualifier s = ⟨.matched (), s⟩ := by
  have hn := State.property_nextKind_eq_false rfl h
  rw [noQualifier, if_neg (by simp [hn])]

theorem innerQualifier_of_kinds (qualified : Bool) (d : Draft) {v r : Word}
    (h : s.kinds = v ++ r) (hv : Optional TokenKind.isQualifier v) (hq : qualified = true → v = [])
    (hr : ∀ k ∈ r.head?, k.isQualifier = false) :
    ∃ d' t, innerQualifier qualified d s = ⟨.matched d', t⟩ ∧ t.kinds = r := by
  cases qualified with
  | false => exact optionalLeaf_of_kinds rfl d h hv hr
  | true =>
    obtain rfl := hq rfl
    have hn : noQualifier s = ⟨.matched (), s⟩ := noQualifier_of_kinds (by rwa [h])
    exact ⟨d, s, bind_of_matched hn, h⟩

theorem stars_kinds (d : Draft) (n : Nat) {r : Word} :
    ∀ {s : State}, s.kinds = List.replicate n .star ++ r → r.head? ≠ some .star →
      (stars d s).2.kinds = r := by
  induction n generalizing d with
  | zero =>
    intro s h hr
    rw [stars, if_neg]
    · exact h
    · intro hk
      obtain ⟨x, rest, hx, hxk⟩ := State.exists_pending hk (by simp)
      have hrk : r = .star :: rest.map Token.kind := by
        rw [← hxk, ← List.map_cons, ← hx]
        exact h.symm
      exact hr (by rw [hrk]; rfl)
  | succ n ih =>
    intro s h hr
    rw [stars, if_pos (State.nextKind_of_kinds h)]
    exact ih _ (State.kinds_addLeaf d h) hr

theorem outerQualifier_of_kinds (d : Draft) {v r : Word} (h : s.kinds = v ++ r)
    (hv : Optional TokenKind.isQualifier v) (hr : ∀ k ∈ r.head?, k.isQualifier = false) :
    ∃ d' t, outerQualifier d s = ⟨.matched d', t⟩ ∧ t.kinds = r := by
  rcases hv with rfl | ⟨k, hk, rfl⟩
  · have hn := State.property_nextKind_eq_false rfl (by rwa [h])
    exact ⟨d, s, by rw [outerQualifier, if_neg (by simp [hn])], h⟩
  · obtain ⟨d', t, ht, htk⟩ := requiredLeaf_of_kinds d h hk
    refine ⟨d', t, ?_, htk⟩
    rw [outerQualifier, if_pos (by rwa [State.nextKind_of_kinds h]), bind_of_matched ht]
    exact bind_of_matched (noQualifier_of_kinds (by rwa [htk]))

theorem pointer_of_kinds (d : Draft) {v r : Word} (h : s.kinds = v ++ r) (hv : IsPointer v)
    (hr : ∀ k ∈ r.head?, k.isQualifier = false ∧ k ≠ .star) :
    ∃ d' t, pointer d s = ⟨.matched d', t⟩ ∧ t.kinds = r := by
  rcases hv with rfl | ⟨n, q, hq, rfl⟩
  · have hn : s.nextKind ≠ .star := by
      intro hk
      obtain ⟨x, rest, hx, hxk⟩ := State.exists_pending hk (by simp)
      refine (hr .star ?_).2 rfl
      rw [← List.nil_append r, ← h, State.kinds, hx]
      simp [hxk]
    exact ⟨d, s, by rw [pointer, if_neg hn], h⟩
  · rw [List.append_assoc] at h
    have hs : (stars d s).2.kinds = q ++ r := by
      refine stars_kinds d (n + 1) h fun hk => ?_
      rcases hq with rfl | ⟨k, hk', rfl⟩
      · exact (hr .star (by simpa using hk)).2 rfl
      · obtain rfl : k = .star := by simpa using hk
        exact absurd hk' (by decide)
    obtain ⟨d', t, ht, htk⟩ := outerQualifier_of_kinds (stars d s).1 hs hq fun k hk => (hr k hk).1
    refine ⟨d', t, ?_, htk⟩
    rw [pointer, if_pos (State.nextKind_of_kinds h)]
    exact (bind_of_matched rfl).trans ht

theorem typeName_of_kinds {v r : Word} {k : TokenKind} (hroom : Room limit (s.depth + 1))
    (hv : IsType v) (h : s.kinds = v ++ k :: r) (hk : k = .ident ∨ k = .rParen) :
    ∃ n t, typeName limit s = ⟨.matched n, t⟩ ∧ t.kinds = k :: r := by
  obtain ⟨hstorage, hlead, hsign, hbase, hinner, hone, hpointer⟩ := hv
  rename_i storage lead sign inner pointer base
  simp only [List.append_assoc, List.cons_append] at h
  have hend : k.isQualifier = false ∧ k ≠ .star := by rcases hk with rfl | rfl <;> decide
  -- no part can be taken for an optional one that comes before it
  have hpointers : ∀ q ∈ (pointer ++ k :: r).head?, q.isQualifier = false := by
    rcases hpointer with rfl | ⟨n, q, _, rfl⟩
    · simpa using hend.1
    · simp [List.replicate_succ, TokenKind.isQualifier]
  obtain ⟨hbase₁, hbase₂, hbase₃⟩ := (sorts_disjoint base).2.2 hbase
  have hsigns : ∀ q ∈ (sign ++ base :: (inner ++ (pointer ++ k :: r))).head?,
      q.isQualifier = false :=
    hsign.head_append (fun q hq => ((sorts_disjoint q).2.1 hq).2) (by simpa using hbase₂)
  have hleads : ∀ q ∈ (lead ++ (sign ++ base :: (inner ++ (pointer ++ k :: r)))).head?,
      q.isStorage = false :=
    hlead.head_append (fun q hq => (sorts_disjoint q).1 hq) <|
      hsign.head_append (fun q hq => ((sorts_disjoint q).2.1 hq).1) (by simpa using hbase₁)
  have h₀ : ((s.enter .type).openNode .type 4).2.kinds =
      storage ++ (lead ++ (sign ++ base :: (inner ++ (pointer ++ k :: r)))) := h
  obtain ⟨d₁, s₁, h₁, k₁⟩ := optionalLeaf_of_kinds rfl (.empty .type s.nextLine 4) h₀ hstorage hleads
  obtain ⟨d₂, s₂, h₂, k₂⟩ := optionalLeaf_of_kinds rfl d₁ k₁ hlead hsigns
  obtain ⟨d₃, s₃, h₃, k₃⟩ := optionalLeaf_of_kinds rfl d₂ k₂ hsign (by simpa using hbase₃)
  obtain ⟨d₄, s₄, h₄, k₄⟩ := requiredLeaf_of_kinds d₃ k₃ hbase
  have hqualified : s₁.nextKind.isQualifier = true → inner = [] := by
    intro hq
    rcases hone with rfl | rfl
    · have hn := @State.property_nextKind_eq_false s₁ TokenKind.isQualifier rfl
        (by rw [k₁]; exact hsigns)
      simp [hn] at hq
    · rfl
  obtain ⟨d₅, s₅, h₅, k₅⟩ :=
    innerQualifier_of_kinds s₁.nextKind.isQualifier d₄ k₄ hinner hqualified hpointers
  obtain ⟨d₆, s₆, h₆, k₆⟩ := pointer_of_kinds d₅ k₅ hpointer (by simpa using hend)
  refine ⟨d₆.close, { s₆ with depth := s₆.depth - 1 }, ?_, k₆⟩
  apply tryRule_of_matched hroom
  refine (bind_of_matched rfl).trans ?_
  refine (bind_of_matched h₁).trans ?_
  refine (bind_of_matched rfl).trans ?_
  refine (bind_of_matched h₂).trans ?_
  refine (bind_of_matched h₃).trans ?_
  refine (bind_of_matched h₄).trans ?_
  refine (bind_of_matched h₅).trans ?_
  exact bind_of_matched h₆

/-- A type before an identifier or a closing parenthesis is read as a whole. -/
theorem typeName_complete {ty : TypeName} {x : Token} {rest : List Token}
    (hroom : Room limit (s.depth + 1)) (hf : s.interner.Faithful)
    (h : WrittenUpTo ty.print s.pending (x :: rest)) (hx : x.kind = .ident ∨ x.kind = .rParen) :
    ∃ n t, typeName limit s = ⟨.matched n, t⟩ ∧ t.pending = x :: rest ∧
      n.shape = ⟨.type, none, ty.shapes⟩ := by
  obtain ⟨n, t, ht, hk⟩ := typeName_of_kinds hroom ty.isType_kinds h.kinds hx
  obtain ⟨ty', h', hn, -⟩ := typeName_sound hf ht
  have hlen : t.pending.length = (x :: rest).length := by
    simpa [State.kinds] using congrArg List.length hk
  obtain ⟨v, hv, hp⟩ := h
  obtain ⟨v', hv', hp'⟩ := h'
  obtain ⟨rfl, hrest⟩ := List.append_inj' (hp.symm.trans hp') hlen.symm
  obtain ⟨_, rfl⟩ := TypeName.eq_ofTokens hv
  obtain ⟨_, rfl⟩ := TypeName.eq_ofTokens hv'
  exact ⟨n, t, ht, hrest.symm, hn⟩

end Parser

end MiniC
