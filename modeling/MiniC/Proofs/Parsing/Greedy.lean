import MiniC.Proofs.Parsing.Position
import MiniC.Proofs.Syntax.TypeParts

namespace MiniC

open Syntax Grammar

/-- The kinds of the significant tokens ahead, also of those behind the end of the input. -/
def Reader.word (r : Reader) : Word := (r.ahead.filter (·.isSignificant)).map Token.kind

theorem Reader.word_rest (r : Reader) : r.rest.word = r.word.tail := by
  rw [word, word, filter_ahead_rest, List.map_tail]

theorem Reader.next_kind (r : Reader) : r.next.kind = r.word.head?.getD .eof := by
  rw [next_eq, word, List.head?_map]
  cases (r.ahead.filter (·.isSignificant)).head? <;> rfl

theorem Reader.Passes.word_eq {r t : Reader} {passed : List Token} (h : r.Passes passed t) :
    r.word = (passed.filter (·.isSignificant)).map Token.kind ++ t.word := by
  rw [word, word, h.ahead, List.filter_append, List.map_append]

namespace State

variable {s : State} {property : TokenKind → Bool}

def word (s : State) : Word := s.reader.word

theorem nextKind_eq_word (s : State) : s.nextKind = s.word.head?.getD .eof := s.reader.next_kind

theorem word_addLeaf (s : State) (d : Draft) : (s.addLeaf d).2.word = s.word.tail := by
  rw [word, reader_addLeaf, Reader.word_rest]
  rfl

theorem kinds_eq_word (s : State) : s.kinds = s.word.takeWhile (· != .eof) := by
  rw [word, Reader.word, List.takeWhile_map]
  rfl

theorem cut_ne_nil_iff (property : TokenKind → Bool) (he : property .eof = false) :
    (cutOptional property s.word).1 ≠ [] ↔ property s.nextKind = true := by
  rw [nextKind_eq_word]
  cases s.word with
  | nil => simp [cutOptional, he]
  | cons k w => by_cases hk : property k = true <;> simp [cutOptional, hk]

theorem cut_of_property (he : property .eof = false) (h : property s.nextKind = true) :
    (cutOptional property s.word).2 = s.word.tail := by
  rw [nextKind_eq_word] at h
  cases hw : s.word with
  | nil => simp [hw, he] at h
  | cons k w => simp_all [cutOptional]

theorem cut_of_not_property (h : property s.nextKind = false) :
    (cutOptional property s.word).2 = s.word := by
  rw [nextKind_eq_word] at h
  cases hw : s.word with
  | nil => rfl
  | cons k w => simp_all [cutOptional]

end State

namespace Parser

variable {α β : Type} {limit : Option Nat} {s t : State} {property : TokenKind → Bool}

theorem optionalLeaf_cut (property : TokenKind → Bool) (he : property .eof = false) (d : Draft)
    (s : State) : ∃ d' t, optionalLeaf property d s = ⟨.matched d', t⟩ ∧
      t.word = (cutOptional property s.word).2 := by
  cases h : property s.nextKind with
  | true =>
    refine ⟨(s.addLeaf d).1, (s.addLeaf d).2, by rw [optionalLeaf, if_pos h]; rfl, ?_⟩
    rw [State.cut_of_property he h, State.word_addLeaf]
  | false =>
    refine ⟨d, s, by rw [optionalLeaf, if_neg (by simp [h])], ?_⟩
    rw [State.cut_of_not_property h]

theorem requiredLeaf_cut (he : property .eof = false) (d : Draft)
    (h : (cutOptional property s.word).1 ≠ []) :
    ∃ d' t, requiredLeaf property d s = ⟨.matched d', t⟩ ∧
      t.word = (cutOptional property s.word).2 := by
  have hk := (State.cut_ne_nil_iff property he).mp h
  refine ⟨(s.addLeaf d).1, (s.addLeaf d).2, by rw [requiredLeaf, if_pos hk]; rfl, ?_⟩
  rw [State.cut_of_property he hk, State.word_addLeaf]

theorem requiredLeaf_of_cut_nil (he : property .eof = false) (d : Draft)
    (h : (cutOptional property s.word).1 = []) :
    requiredLeaf property d s = ⟨.mismatch, s⟩ := by
  have hk : ¬property s.nextKind = true := fun hk => (State.cut_ne_nil_iff property he).mpr hk h
  rw [requiredLeaf, if_neg hk]

theorem noQualifier_of_cut (h : (cutOptional TokenKind.isQualifier s.word).1 ≠ []) :
    ∃ t, noQualifier s = ⟨.mismatch, t⟩ := by
  rw [noQualifier, if_pos ((State.cut_ne_nil_iff _ rfl).mp h)]
  exact ⟨_, rfl⟩

theorem noQualifier_of_cut_nil (h : (cutOptional TokenKind.isQualifier s.word).1 = []) :
    noQualifier s = ⟨.matched (), s⟩ := by
  have hk : ¬s.nextKind.isQualifier = true := fun hk =>
    (State.cut_ne_nil_iff TokenKind.isQualifier rfl).mpr hk h
  rw [noQualifier, if_neg hk]

theorem innerQualifier_cut {qualified : Bool} (d : Draft)
    (h : ¬(qualified = true ∧ (cutOptional TokenKind.isQualifier s.word).1 ≠ [])) :
    ∃ d' t, innerQualifier qualified d s = ⟨.matched d', t⟩ ∧
      t.word = (cutOptional TokenKind.isQualifier s.word).2 := by
  cases qualified with
  | false => exact optionalLeaf_cut TokenKind.isQualifier rfl d s
  | true =>
    have hnone : (cutOptional TokenKind.isQualifier s.word).1 = [] := by simpa using h
    refine ⟨d, s, bind_of_matched (noQualifier_of_cut_nil hnone), ?_⟩
    have happend := cutOptional_append TokenKind.isQualifier s.word
    rwa [hnone, List.nil_append, eq_comm] at happend

theorem innerQualifier_of_both (d : Draft)
    (h : (cutOptional TokenKind.isQualifier s.word).1 ≠ []) :
    ∃ t, innerQualifier true d s = ⟨.mismatch, t⟩ := by
  obtain ⟨t, ht⟩ := noQualifier_of_cut h
  exact ⟨t, bind_of_mismatch ht⟩

theorem word_stars (d : Draft) (s : State) :
    (stars d s).2.word = s.word.dropWhile (· == .star) := by
  fun_induction stars d s with
  | case1 d s h pushed ih =>
    rw [ih, State.word_addLeaf]
    rw [State.nextKind_eq_word] at h
    cases hw : s.word with
    | nil => simp [hw] at h
    | cons k w => simp_all
  | case2 d s h =>
    rw [State.nextKind_eq_word] at h
    cases hw : s.word with
    | nil => rfl
    | cons k w => simp_all

theorem outerQualifier_cut (d : Draft)
    (h : ¬((cutOptional TokenKind.isQualifier s.word).1 ≠ [] ∧
      ∃ k ∈ (cutOptional TokenKind.isQualifier s.word).2.head?, k.isQualifier = true)) :
    ∃ d' t, outerQualifier d s = ⟨.matched d', t⟩ ∧
      t.word = (cutOptional TokenKind.isQualifier s.word).2 := by
  by_cases hone : (cutOptional TokenKind.isQualifier s.word).1 = []
  · have hk : ¬s.nextKind.isQualifier = true := fun hk =>
      (State.cut_ne_nil_iff TokenKind.isQualifier rfl).mpr hk hone
    refine ⟨d, s, by rw [outerQualifier, if_neg hk], ?_⟩
    rw [State.cut_of_not_property (Bool.not_eq_true _ ▸ hk)]
  · obtain ⟨d', t, ht, hw⟩ := requiredLeaf_cut rfl d hone
    have htwo : (cutOptional TokenKind.isQualifier t.word).1 = [] := by
      by_contra hk
      rw [← ne_eq, hw] at hk
      exact h ⟨hone, cutOptional_ne_nil_iff.mp hk⟩
    refine ⟨d', t, ?_, hw⟩
    rw [outerQualifier, if_pos ((State.cut_ne_nil_iff _ rfl).mp hone), bind_of_matched ht]
    exact bind_of_matched (noQualifier_of_cut_nil htwo)

theorem outerQualifier_of_two (d : Draft)
    (hone : (cutOptional TokenKind.isQualifier s.word).1 ≠ [])
    (htwo : ∃ k ∈ (cutOptional TokenKind.isQualifier s.word).2.head?, k.isQualifier = true) :
    ∃ t, outerQualifier d s = ⟨.mismatch, t⟩ := by
  obtain ⟨d', t, ht, hw⟩ := requiredLeaf_cut rfl d hone
  rw [← hw] at htwo
  obtain ⟨u, hu⟩ := noQualifier_of_cut (cutOptional_ne_nil_iff.mpr htwo)
  rw [outerQualifier, if_pos ((State.cut_ne_nil_iff _ rfl).mp hone), bind_of_matched ht]
  exact ⟨u, bind_of_mismatch hu⟩

theorem takeWhile_star_ne_nil_iff :
    s.word.takeWhile (· == .star) ≠ [] ↔ s.nextKind = .star := by
  rw [State.nextKind_eq_word]
  cases s.word with
  | nil => simp
  | cons k w => by_cases hk : k = .star <;> simp [hk]

theorem pointer_cut (d : Draft)
    (h : ¬(s.word.takeWhile (· == .star) ≠ [] ∧ (cutOuter s.word).1 ≠ [] ∧
      ∃ k ∈ (cutOuter s.word).2.head?, k.isQualifier = true)) :
    ∃ d' t, pointer d s = ⟨.matched d', t⟩ ∧ t.word = (cutOuter s.word).2 := by
  by_cases hs : s.nextKind = .star
  · have hstars := takeWhile_star_ne_nil_iff.mpr hs
    have hcut : cutOuter s.word = cutOptional TokenKind.isQualifier (stars d s).2.word := by
      rw [cutOuter, if_neg hstars, word_stars]
    rw [hcut] at h ⊢
    obtain ⟨d', t, ht, hw⟩ := outerQualifier_cut (stars d s).1 fun htwo => h ⟨hstars, htwo⟩
    refine ⟨d', t, ?_, hw⟩
    rw [pointer, if_pos hs]
    exact (bind_of_matched rfl).trans ht
  · have hstars : s.word.takeWhile (· == .star) = [] := by
      by_contra hne
      exact hs (takeWhile_star_ne_nil_iff.mp hne)
    have hall := List.takeWhile_append_dropWhile (p := (· == TokenKind.star)) (l := s.word)
    rw [hstars, List.nil_append] at hall
    refine ⟨d, s, by rw [pointer, if_neg hs], ?_⟩
    rw [cutOuter, if_pos hstars, hall]

theorem pointer_of_two (d : Draft) (hstars : s.word.takeWhile (· == .star) ≠ [])
    (hone : (cutOuter s.word).1 ≠ [])
    (htwo : ∃ k ∈ (cutOuter s.word).2.head?, k.isQualifier = true) :
    ∃ t, pointer d s = ⟨.mismatch, t⟩ := by
  have hcut : cutOuter s.word = cutOptional TokenKind.isQualifier (stars d s).2.word := by
    rw [cutOuter, if_neg hstars, word_stars]
  rw [hcut] at hone htwo
  obtain ⟨t, ht⟩ := outerQualifier_of_two (stars d s).1 hone htwo
  refine ⟨t, ?_⟩
  rw [pointer, if_pos (takeWhile_star_ne_nil_iff.mp hstars)]
  exact (bind_of_matched rfl).trans ht

theorem behindBase_cut (qualified : Bool) (d : Draft) (s : State) :
    let inner := cutOptional TokenKind.isQualifier s.word
    let accepted := ¬(qualified = true ∧ inner.1 ≠ []) ∧
      ¬(inner.2.takeWhile (· == .star) ≠ [] ∧ (cutOuter inner.2).1 ≠ [] ∧
        ∃ k ∈ (cutOuter inner.2).2.head?, k.isQualifier = true)
    let p : Parser Node := do
      let ty ← innerQualifier qualified d
      let ty ← pointer ty
      return ty.close
    (accepted → ∃ n t, p s = ⟨.matched n, t⟩ ∧ t.word = (cutOuter inner.2).2) ∧
      (¬accepted → ∃ t, p s = ⟨.mismatch, t⟩) := by
  intro inner accepted p
  by_cases hboth : qualified = true ∧ inner.1 ≠ []
  · obtain ⟨rfl, hinner⟩ := hboth
    refine ⟨fun h => absurd ⟨rfl, hinner⟩ h.1, fun _ => ?_⟩
    obtain ⟨t, ht⟩ := innerQualifier_of_both d hinner
    exact ⟨t, bind_of_mismatch ht⟩
  · obtain ⟨d₁, s₁, h₁, k₁⟩ := innerQualifier_cut d hboth
    have hp : p s = (do let ty ← pointer d₁
                        return ty.close : Parser Node) s₁ := bind_of_matched h₁
    have hinner : inner.2 = s₁.word := k₁.symm
    unfold accepted
    rw [hp, hinner]
    by_cases htwo : s₁.word.takeWhile (· == .star) ≠ [] ∧ (cutOuter s₁.word).1 ≠ [] ∧
        ∃ k ∈ (cutOuter s₁.word).2.head?, k.isQualifier = true
    · refine ⟨fun h => absurd htwo h.2, fun _ => ?_⟩
      obtain ⟨t, ht⟩ := pointer_of_two d₁ htwo.1 htwo.2.1 htwo.2.2
      exact ⟨t, bind_of_mismatch ht⟩
    · refine ⟨fun _ => ?_, fun h => absurd ⟨hboth, htwo⟩ h⟩
      obtain ⟨d₂, s₂, h₂, k₂⟩ := pointer_cut d₁ htwo
      exact ⟨d₂.close, s₂, bind_of_matched h₂, k₂⟩

/-- If the parts ahead are accepted, they are read as a type, and otherwise nothing is. -/
theorem typeName_cut (hroom : Room limit (s.depth + 1)) :
    ((TypeParts.ofWord s.word).Accepted →
      ∃ n t, typeName limit s = ⟨.matched n, t⟩ ∧ t.word = (TypeParts.ofWord s.word).rest) ∧
    (¬(TypeParts.ofWord s.word).Accepted → ∃ t, typeName limit s = ⟨.mismatch, t⟩) := by
  let s₀ := ((s.enter .type).openNode .type 4).2
  have k₀ : s₀.word = s.word := rfl
  obtain ⟨d₁, s₁, h₁, k₁⟩ :=
    optionalLeaf_cut TokenKind.isStorage rfl (.empty .type s.nextLine 4) s₀
  obtain ⟨d₂, s₂, h₂, k₂⟩ := optionalLeaf_cut TokenKind.isQualifier rfl d₁ s₁
  obtain ⟨d₃, s₃, h₃, k₃⟩ := optionalLeaf_cut TokenKind.isSign rfl d₂ s₂
  -- The three optional parts before the base are read in any case.
  have hbegin : typeName limit s = s.leave .type
      ((do let ty ← requiredLeaf TokenKind.isBase d₃
           let ty ← innerQualifier s₁.nextKind.isQualifier ty
           let ty ← pointer ty
           return ty.close : Parser Node) s₃) := by
    rw [typeName, tryRule_of_room hroom]
    refine congrArg (s.leave .type) ?_
    refine (bind_of_matched rfl).trans ?_
    refine (bind_of_matched h₁).trans ?_
    refine (bind_of_matched rfl).trans ?_
    refine (bind_of_matched h₂).trans ?_
    exact bind_of_matched h₃
  have hlead := State.cut_ne_nil_iff (s := s₁) TokenKind.isQualifier rfl
  rw [k₀] at k₁
  rw [k₁] at k₂ hlead
  rw [k₂] at k₃
  by_cases hbase : (cutOptional TokenKind.isBase s₃.word).1 = []
  · have hno : ¬(TypeParts.ofWord s.word).Accepted := fun h => h.1 (by rw [← hbase, k₃]; rfl)
    refine ⟨fun h => absurd h hno, fun _ => ?_⟩
    rw [hbegin, bind_of_mismatch (requiredLeaf_of_cut_nil rfl d₃ hbase)]
    exact ⟨_, rfl⟩
  · obtain ⟨d₄, s₄, h₄, k₄⟩ := requiredLeaf_cut rfl d₃ hbase
    obtain ⟨hmatched, hmismatch⟩ := behindBase_cut s₁.nextKind.isQualifier d₄ s₄
    rw [hbegin, bind_of_matched h₄]
    rw [k₃] at k₄ hbase
    rw [k₄, ← hlead] at hmatched hmismatch
    have haccepted : (TypeParts.ofWord s.word).Accepted ↔ _ := and_iff_right hbase
    constructor
    · intro h
      obtain ⟨n, t, ht, hw⟩ := hmatched (haccepted.mp h)
      rw [ht]
      exact ⟨n, _, rfl, hw⟩
    · intro h
      obtain ⟨t, ht⟩ := hmismatch fun hok => h (haccepted.mpr hok)
      rw [ht]
      exact ⟨_, rfl⟩

/-- What is read as a type are the parts that come next, with a leaf for each token. -/
theorem typeName_taken (hf : s.interner.Faithful) {n : Node}
    (h : typeName limit s = ⟨.matched n, t⟩) :
    (TypeParts.ofWord s.word).Accepted ∧ IsType (TypeParts.ofWord s.word).taken ∧
      s.kinds = (TypeParts.ofWord s.word).taken ++ t.kinds ∧
      ∃ passed, s.reader.Passes passed t.reader ∧
        (passed.filter (·.isSignificant)).map Token.kind = (TypeParts.ofWord s.word).taken ∧
        n.shape = ⟨.type, none,
          (passed.filter (·.isSignificant)).map fun x => (Leaf.ofToken x).shape⟩ := by
  obtain ⟨hmatched, hmismatch⟩ := typeName_cut (s := s) (room_of_matched h)
  have haccepted : (TypeParts.ofWord s.word).Accepted := by
    by_contra hno
    obtain ⟨u, hu⟩ := hmismatch hno
    simp [h] at hu
  obtain ⟨n', t', ht', hrest⟩ := hmatched haccepted
  obtain ⟨-, rfl⟩ := Result.mk.inj (h.symm.trans ht')
  obtain ⟨ty, hw, hshape, -⟩ := typeName_sound hf h
  obtain ⟨passed, hpasses, hwritten⟩ :=
    ((keeps_typeName limit).of_eq h).reaches.passesText hw
  obtain ⟨hty, rfl⟩ := TypeName.eq_ofTokens hwritten
  have htaken : (passed.filter (·.isSignificant)).map Token.kind =
      (TypeParts.ofWord s.word).taken := by
    have hword : s.word = _ := hpasses.word_eq
    have hall := TypeParts.taken_append_rest s.word
    rw [← hrest] at hall
    exact List.append_cancel_right (hword.symm.trans hall.symm)
  have hkinds : s.kinds = (TypeParts.ofWord s.word).taken ++ t.kinds := by
    rw [← htaken, hwritten.kinds]
    exact hw.kinds
  refine ⟨haccepted, htaken ▸ hty, hkinds, passed, hpasses, htaken, ?_⟩
  rw [hshape, TypeName.shapes, TypeName.ofTokens, List.map_map]
  rfl

/-- Before an identifier or a closing parenthesis exactly the parts of a type are taken. -/
theorem typeName_taken_eq (hroom : Room limit (s.depth + 1)) (hf : s.interner.Faithful)
    {v rest : Word} {k : TokenKind} (hv : IsType v) (h : s.word = v ++ k :: rest)
    (hk : k = .ident ∨ k = .rParen) :
    ∃ n t, typeName limit s = ⟨.matched n, t⟩ ∧ (TypeParts.ofWord s.word).taken = v := by
  have hparts : ∀ q ∈ v, (q != .eof) = true := by
    intro q hq
    have hpart := hv.isTypePart_of_mem hq
    rw [bne_iff_ne]
    rintro rfl
    exact absurd hpart (by decide)
  have hkinds : s.kinds = v ++ k :: rest.takeWhile (· != .eof) := by
    have hne : (k != .eof) = true := by rcases hk with rfl | rfl <;> rfl
    rw [State.kinds_eq_word, h, List.takeWhile_append_of_pos hparts]
    exact congrArg (v ++ ·) (List.takeWhile_cons_of_pos hne)
  obtain ⟨n, t, ht, hleft⟩ := typeName_of_kinds hroom hv hkinds hk
  obtain ⟨-, -, htaken, -⟩ := typeName_taken hf ht
  rw [hkinds, hleft] at htaken
  exact ⟨n, t, ht, (List.append_cancel_right htaken).symm⟩

/-- A type is read where the parts that come next are accepted, and otherwise there is a mismatch.
What is read are these parts, with a leaf for each of them, newlines aside. -/
theorem typeName_greedy (tokens : List Token) (cursor : Cursor) (depth : Nat) (arena : Arena)
    (interner : Interner) (log : List Event) (hdepth : depth < nestingLimit)
    (hf : interner.Faithful) :
    let r := typeName (some nestingLimit)
      ⟨Reader.ofTokens tokens cursor, depth, arena, interner, log⟩
    let w := ((tokens.drop cursor.index).filter (·.isSignificant)).map Token.kind
    let parts := TypeParts.ofWord w
    ((∃ n, r.outcome = .matched n) ↔ parts.Accepted) ∧
    (r.outcome = .mismatch ↔ ¬parts.Accepted) ∧
    (∀ n, r.outcome = .matched n → IsType parts.taken ∧
      ∃ passed, (Reader.ofTokens tokens cursor).Passes passed r.final.reader ∧
        (passed.filter (·.isSignificant)).map Token.kind = parts.taken ∧
        n.shape = ⟨.type, none,
          (passed.filter (·.isSignificant)).map fun x => (Leaf.ofToken x).shape⟩) ∧
    ∀ v k rest, IsType v → w = v ++ k :: rest → k = .ident ∨ k = .rParen →
      (∃ n, r.outcome = .matched n) ∧ parts.taken = v := by
  intro r w parts
  let s : State := ⟨Reader.ofTokens tokens cursor, depth, arena, interner, log⟩
  have hroom : Room (some nestingLimit) (s.depth + 1) := room_nestingLimit_iff.mpr hdepth
  obtain ⟨hmatched, hmismatch⟩ := typeName_cut (s := s) hroom
  have hread : parts.Accepted → ∃ n, r.outcome = .matched n := by
    intro h
    obtain ⟨n, t, ht, -⟩ := hmatched h
    exact ⟨n, congrArg Result.outcome ht⟩
  have hother : ¬parts.Accepted → r.outcome = .mismatch := by
    intro h
    obtain ⟨t, ht⟩ := hmismatch h
    exact congrArg Result.outcome ht
  have hnode (n : Node) (hn : r.outcome = .matched n) :
      typeName (some nestingLimit) s = ⟨.matched n, r.final⟩ := by rw [← hn]
  refine ⟨⟨?_, hread⟩, ⟨?_, hother⟩, ?_, ?_⟩
  · rintro ⟨n, hn⟩
    exact (typeName_taken hf (hnode n hn)).1
  · intro hm h
    obtain ⟨n, hn⟩ := hread h
    simp [hm] at hn
  · intro n hn
    obtain ⟨-, hty, -, hpassed⟩ := typeName_taken hf (hnode n hn)
    exact ⟨hty, hpassed⟩
  · intro v k rest hv hw hk
    obtain ⟨n, t, ht, htaken⟩ := typeName_taken_eq (s := s) hroom hf hv hw hk
    exact ⟨⟨n, congrArg Result.outcome ht⟩, htaken⟩

/-- `static unsigned int const ** volatile` and a newline among the stars, before a name. -/
theorem typeName_greedy_pointer :
    let tokens := [Token.plain .kwStatic, .plain .kwUnsigned, .plain .kwInt, .plain .kwConst,
      .plain .star, .newline, .plain .star, .plain .kwVolatile, .ident "x"]
    let v := [TokenKind.kwStatic, .kwUnsigned, .kwInt, .kwConst, .star, .star, .kwVolatile]
    255 < nestingLimit ∧ Interner.empty.Faithful ∧ IsType v ∧
      (∃ n, (typeName (some nestingLimit)
        ⟨Reader.ofTokens tokens .start, 255, .ofCapacity .packed 4096, .empty, []⟩).outcome =
          .matched n) ∧
      (TypeParts.ofWord ((tokens.filter (·.isSignificant)).map Token.kind)).taken = v := by
  intro tokens v
  have hdepth : 255 < nestingLimit := by decide
  have hv : IsType ([.kwStatic] ++ [] ++ [.kwUnsigned] ++
      .kwInt :: ([.kwConst] ++ [.star, .star, .kwVolatile])) :=
    .intro (.inr ⟨_, rfl, rfl⟩) (.inl rfl) (.inr ⟨_, rfl, rfl⟩) rfl (.inr ⟨_, rfl, rfl⟩) (.inl rfl)
      (.inr ⟨1, [.kwVolatile], .inr ⟨_, rfl, rfl⟩, rfl⟩)
  obtain ⟨-, -, -, hwhole⟩ := typeName_greedy tokens .start 255 (.ofCapacity .packed 4096) .empty []
    hdepth Interner.faithful_empty
  exact ⟨hdepth, Interner.faithful_empty, hv, hwhole v .ident [] hv rfl (.inl rfl)⟩

end Parser

end MiniC
