import MiniC.Proofs.Arena.Usage
import MiniC.Proofs.Parsing.Program

namespace MiniC

def anyLines (_ _ : Nat) : Prop := True

/-- If `texts` holds, the same text, and otherwise any two. -/
def SameText (texts : Prop) (x x' : Option StoredText) : Prop :=
  texts → x.map StoredText.text = x'.map StoredText.text

/-- No rule tells the tokens apart. If `texts` holds, neither do the leaves that they make. -/
structure Token.Alike (texts : Prop) (x y : Token) : Prop where
  kind : x.kind = y.kind
  text : texts → x.identifier? = y.identifier?

theorem Token.forall₂_alike {texts : Prop} {v w : List Token}
    (hk : v.map Token.kind = w.map Token.kind)
    (ht : texts → v.map Token.identifier? = w.map Token.identifier?) :
    List.Forall₂ (Token.Alike texts) v w := by
  induction v generalizing w with
  | nil =>
    rw [List.map_nil, eq_comm, List.map_eq_nil_iff] at hk
    rw [hk]
    exact .nil
  | cons x v ih =>
    obtain ⟨y, w, rfl, hy, hw⟩ := List.map_eq_cons_iff.mp hk.symm
    have hx : x.Alike texts y := ⟨hy.symm, fun h => (List.cons.inj (ht h)).1⟩
    exact .cons hx (ih hw.symm fun h => (List.cons.inj (ht h)).2)

namespace Interner

variable {i j : Interner} {a b : Arena} {text : String}

theorem intern_of_some {stored : StoredText} (h : i.texts[text]? = some stored) (a : Arena) :
    i.intern a text = (stored, i, a) := by
  unfold intern
  rw [h]

theorem intern_of_none (h : i.texts[text]? = none) (a : Arena) :
    i.intern a text =
      ((a.store text).1, ⟨i.texts.insert text (a.store text).1⟩, (a.reserve (.text text)).2) := by
  unfold intern
  rw [h]
  rfl

structure Alike (i j : Interner) : Prop where
  faithful : i.Faithful
  faithful' : j.Faithful
  stored : ∀ text : String, i.texts[text]?.isSome = j.texts[text]?.isSome

theorem Alike.empty : Interner.empty.Alike Interner.empty :=
  ⟨faithful_empty, faithful_empty, fun _ => rfl⟩

/-- The same text is stored again, or else it is stored now by both. -/
theorem Alike.intern (h : i.Alike j) (hab : a.EquallyFull b) (text : String) :
    (i.intern a text).1.text = (j.intern b text).1.text ∧
      (i.intern a text).2.1.Alike (j.intern b text).2.1 ∧
      (i.intern a text).2.2.EquallyFull (j.intern b text).2.2 := by
  have hstored := h.stored text
  cases hi : i.texts[text]? with
  | some x =>
    rw [hi, Option.isSome_some] at hstored
    obtain ⟨y, hj⟩ := Option.isSome_iff_exists.mp hstored.symm
    rw [intern_of_some hi, intern_of_some hj]
    have htext : x.text = y.text := (h.faithful _ _ hi).trans (h.faithful' _ _ hj).symm
    exact ⟨htext, h, hab⟩
  | none =>
    rw [hi, Option.isSome_none] at hstored
    have hj : j.texts[text]? = none := Option.not_isSome_iff_eq_none.mp (by simp [← hstored])
    have hf := (h.faithful.intern a text).2
    have hf' := (h.faithful'.intern b text).2
    rw [intern_of_none hi] at hf ⊢
    rw [intern_of_none hj] at hf' ⊢
    refine ⟨rfl, ⟨hf, hf', fun other => ?_⟩, hab.reserve (one_dvd blockAlign)⟩
    rw [Std.TreeMap.getElem?_insert, Std.TreeMap.getElem?_insert]
    split
    · rfl
    · exact h.stored other

end Interner

/-- The states differ only in what does not matter to the rest of the parse: where its lines are,
what the tokens carry and where the blocks of the arena are. -/
structure State.Alike (texts : Prop) (s t : State) : Prop where
  depth : s.depth = t.depth
  pending : List.Forall₂ (Token.Alike texts) s.pending t.pending
  interner : texts → s.interner.Alike t.interner
  arena : texts → s.arena.EquallyFull t.arena

namespace State.Alike

variable {texts : Prop} {s t : State}

theorem start (texts : Prop) {tokens tokens' : List Token} (place place' : Placement)
    (capacity : Nat)
    (hk : programKinds tokens = programKinds tokens')
    (ht : texts → (programTokens tokens).map Token.identifier? =
      (programTokens tokens').map Token.identifier?) :
    Alike texts (.start (Reader.ofTokens tokens .start) (.ofCapacity place capacity))
      (.start (Reader.ofTokens tokens' .start) (.ofCapacity place' capacity)) :=
  ⟨rfl, Token.forall₂_alike hk ht, fun _ => .empty, fun _ => .ofCapacity place place' capacity⟩

theorem nextKind (h : Alike texts s t) : s.nextKind = t.nextKind := by
  have hpending := h.pending
  cases hs : s.pending with
  | nil =>
    rw [hs, List.forall₂_nil_left_iff] at hpending
    rw [State.pending_eq_nil_iff.mp hs, State.pending_eq_nil_iff.mp hpending]
  | cons x xs =>
    rw [hs, List.forall₂_cons_left_iff] at hpending
    obtain ⟨y, ys, hxy, -, ht⟩ := hpending
    rw [State.nextKind_of_pending hs, State.nextKind_of_pending ht]
    exact hxy.kind

theorem next (h : Alike texts s t) (hs : s.nextKind ≠ .eof) :
    s.reader.next.Alike texts t.reader.next ∧
      List.Forall₂ (Token.Alike texts) s.skip.pending t.skip.pending := by
  have ht : t.nextKind ≠ .eof := h.nextKind ▸ hs
  have hpending := h.pending
  rw [State.pending, Reader.pending_eq_cons hs, State.pending, Reader.pending_eq_cons ht]
    at hpending
  exact List.forall₂_cons.mp hpending

theorem isFull (h : Alike texts s t) (limit : Nat) :
    s.isFull (some limit) = t.isFull (some limit) := by
  unfold State.isFull
  rw [h.depth]

theorem skip (h : Alike texts s t) (hs : s.nextKind ≠ .eof) : Alike texts s.skip t.skip :=
  ⟨h.depth, (h.next hs).2, h.interner, h.arena⟩

theorem internToken (h : Alike texts s t) {x y : Token} (hxy : x.Alike texts y) :
    SameText texts (s.internToken x).1 (t.internToken y).1 ∧
      Alike texts (s.internToken x).2 (t.internToken y).2 := by
  have hdepth : (s.internToken x).2.depth = (t.internToken y).2.depth :=
    (s.kept_internToken x).depth.trans (h.depth.trans (t.kept_internToken y).depth.symm)
  have hpending :
      List.Forall₂ (Token.Alike texts) (s.internToken x).2.pending (t.internToken y).2.pending := by
    simpa only [State.pending, State.reader_internToken] using h.pending
  by_cases ht : texts
  · have hi := h.interner ht
    have ha := h.arena ht
    have hsame := hxy.text ht
    unfold State.internToken at hdepth hpending ⊢
    rw [← hsame] at hdepth hpending ⊢
    cases hx : x.identifier? with
    | none =>
      exact ⟨fun _ => rfl, h⟩
    | some text =>
      rw [hx] at hdepth hpending
      obtain ⟨htext, hi', ha'⟩ := hi.intern ha text
      exact ⟨fun _ => congrArg some htext, hdepth, hpending, fun _ => hi', fun _ => ha'⟩
  · exact ⟨fun h => absurd h ht, hdepth, hpending, fun h => absurd h ht, fun h => absurd h ht⟩

theorem reserve (h : Alike texts s t) {requests : List Request}
    (hr : ∀ r ∈ requests, r.IsForNodes) :
    Alike texts (s.withArena (s.arena.reserveAll requests))
      (t.withArena (t.arena.reserveAll requests)) := by
  refine ⟨h.depth, h.pending, h.interner, fun ht => (h.arena ht).reserveAll fun r hr' => ?_⟩
  rw [hr r hr']
  decide

end State.Alike

/-- Two parses that read tokens of the same kinds, and if `texts` holds with the same texts. -/
def layoutCoupling (texts : Prop) : Coupling where
  limit := some nestingLimit
  limit' := some nestingLimit
  line := anyLines
  text := SameText texts
  state := State.Alike texts
  error := ParseError.Like anyLines
  lost _ _ _ := False
  nextKind h := h.nextKind
  nextLine _ := trivial
  lastLine _ := trivial
  noText _ := rfl
  unsupported construct _ := .unsupported construct trivial
  unrecognized {s t} h := by
    rw [h.nextKind]
    exact .unrecognized _ trivial
  nestingTooDeep _ _ _ := .nestingTooDeep trivial
  record h _ := ⟨h.depth, h.pending, h.interner, h.arena⟩
  skip h hs := h.skip hs
  intern h hs := (h.skip hs).internToken (h.next hs).1
  reserve h hr := h.reserve hr
  enter rule h hs :=
    ⟨(h.isFull nestingLimit).symm.trans hs, congrArg (· + 1) h.depth, h.pending, h.interner,
      h.arena⟩
  lose rule h hs ht _ := by
    have hfull := h.isFull nestingLimit
    rw [hs, ht] at hfull
    exact Bool.noConfusion hfull
  back h k := ⟨k.depth, h.pending, k.interner, k.arena⟩
  leave h := ⟨congrArg (· - 1) h.depth, h.pending, h.interner, h.arena⟩
  lost_mono h _ := h

/-- The outcomes of two such parses are alike, and so are the states in which they end. -/
theorem Parser.translationUnit_alike {texts : Prop} {s t : State} (h : s.Alike texts t) :
    let r := Parser.translationUnit (some nestingLimit) s
    let r' := Parser.translationUnit (some nestingLimit) t
    r.outcome.Like anyLines (SameText texts) r'.outcome ∧ r.final.Alike texts r'.final := by
  have hr := Parser.couple_translationUnit (layoutCoupling texts) s t h
  intro r r'
  change r.Coupled _ _ r' at hr
  generalize r = r at hr
  generalize r' = r' at hr
  cases hr with
  | matched hn hst => exact ⟨.matched hn, hst⟩
  | mismatch hst => exact ⟨.mismatch, hst⟩
  | fatal he hst => exact ⟨.fatal he, hst⟩
  | lost hl => exact hl.elim

/-- Tokens of the same kinds are parsed alike, whatever newlines and payloads they have; with the
same texts, so are the leaves, and the two arenas are equally full. -/
theorem parse_layout_independent {tokens tokens' : List Token} (place place' : Placement)
    (capacity : Nat) (hk : programKinds tokens = programKinds tokens') :
    let r := parse tokens (.ofCapacity place capacity)
    let r' := parse tokens' (.ofCapacity place' capacity)
    r.outcome.Like anyLines (SameText False) r'.outcome ∧
      ((programTokens tokens).map Token.identifier? =
          (programTokens tokens').map Token.identifier? →
        r.outcome.Like anyLines (SameText True) r'.outcome ∧
          (r.final.arena.WellPlaced → r'.final.arena.WellPlaced →
            r.final.arena.counts = r'.final.arena.counts ∧
              r.final.arena.remaining = r'.final.arena.remaining)) := by
  intro r r'
  have hkinds := Parser.translationUnit_alike
    (State.Alike.start False place place' capacity hk False.elim)
  refine ⟨hkinds.1, fun ht => ?_⟩
  have htexts := Parser.translationUnit_alike
    (State.Alike.start True place place' capacity hk fun _ => ht)
  refine ⟨htexts.1, fun hw hw' => ?_⟩
  have husage : r.final.arena.usage = r'.final.arena.usage := (htexts.2.arena trivial).usage hw hw'
  refine ⟨congrArg Usage.counts husage, ?_⟩
  rw [Arena.remaining_eq, Arena.remaining_eq, husage]

theorem Parser.arena_of_item {limit : Option Nat} {s t : State} {item : Node}
    (hs : s.nextKind ≠ .eof)
    (h : topLevel limit (s.openNode .translationUnit 4).2 = ⟨.matched item, t⟩)
    (ht : t.nextKind = .eof) :
    (translationUnit limit s).final.arena =
      (t.append (s.openNode .translationUnit 4).1 item).2.arena := by
  let root := s.openNode .translationUnit 4
  have hitems := unitItems_of_item root.1 (s := root.2) hs h
  have hend : (t.append root.1 item).2.nextKind = .eof := ht
  have hrest := unitItems_eq limit (root.1.push item) (t.append root.1 item).2
  rw [if_pos hend] at hrest
  have hm : translationUnit limit s = ⟨.matched (root.1.push item).close, _⟩ :=
    (bind_of_matched rfl).trans ((bind_of_matched (hitems.trans hrest)).trans rfl)
  rw [hm]
  rfl

/-- `int x;` over two lines. -/
def spreadTokens : List Token := [.plain .kwInt, .newline, .ident "x", .plain .semicolon]

/-- `int x;` with a number on the keyword and with more behind the end. -/
def loadedTokens : List Token :=
  [.newline, ⟨.kwInt, .int 5⟩, .ident "x", .plain .semicolon, .eof, .plain .rBrace]

theorem parse_layout_independent_definition :
    let r := parse spreadTokens (.ofCapacity .packed 4096)
    let r' := parse loadedTokens (.ofCapacity (fun _ _ align => 3 * align) 4096)
    programKinds spreadTokens = programKinds loadedTokens ∧
      (programTokens spreadTokens).map Token.identifier? =
        (programTokens loadedTokens).map Token.identifier? ∧
      r.final.arena.WellPlaced ∧ r'.final.arena.WellPlaced ∧
      r.outcome.Like anyLines (SameText True) r'.outcome ∧
      r.final.arena.counts = r'.final.arena.counts ∧
      r.final.arena.remaining = r'.final.arena.remaining := by
  intro r r'
  have hk : programKinds spreadTokens = programKinds loadedTokens := by decide
  have ht : (programTokens spreadTokens).map Token.identifier? =
      (programTokens loadedTokens).map Token.identifier? := by decide
  have hchain : r.final.arena.chain = [⟨1048576, 4096, 16, 328⟩] :=
    (congrArg Arena.chain (Parser.arena_of_item (by decide) rfl rfl)).trans rfl
  have hchain' : r'.final.arena.chain = [⟨48, 4096, 16, 328⟩] :=
    (congrArg Arena.chain (Parser.arena_of_item (by decide) rfl rfl)).trans rfl
  have hw : r.final.arena.WellPlaced := by
    rw [Arena.WellPlaced, hchain, List.forall_mem_singleton]
    exact ⟨by decide, by decide⟩
  have hw' : r'.final.arena.WellPlaced := by
    rw [Arena.WellPlaced, hchain', List.forall_mem_singleton]
    exact ⟨by decide, by decide⟩
  obtain ⟨-, hsame⟩ := parse_layout_independent .packed (fun _ _ align => 3 * align) 4096 hk
  obtain ⟨hlike, hfull⟩ := hsame ht
  obtain ⟨hcounts, hremaining⟩ := hfull hw hw'
  exact ⟨hk, ht, hw, hw', hlike, hcounts, hremaining⟩

end MiniC
