import MiniC.Parse.Unit

namespace MiniC

/-- Every stored text is the one that it is stored under. -/
def Interner.Faithful (i : Interner) : Prop :=
  ∀ (text : String) (stored : StoredText), i.texts[text]? = some stored → stored.text = text

theorem Interner.faithful_empty : Interner.empty.Faithful := by
  intro text stored h
  simp [Interner.empty] at h

theorem Interner.Faithful.intern {i : Interner} (h : i.Faithful) (a : Arena) (text : String) :
    (i.intern a text).1.text = text ∧ (i.intern a text).2.1.Faithful := by
  unfold Interner.intern
  split
  · next stored hs => exact ⟨h text stored hs, h⟩
  · refine ⟨rfl, fun text' stored hs => ?_⟩
    simp only [Std.TreeMap.getElem?_insert] at hs
    split at hs
    · next he =>
      rw [← Std.LawfulEqCmp.eq_of_compare he, ← Option.some.inj hs]
      rfl
    · exact h text' stored hs

/-- The second reader is where the first one comes to by reading some tokens. -/
inductive Reader.Reaches : Reader → Reader → Prop where
  | refl (r : Reader) : Reaches r r
  | read {r t : Reader} : r.next.kind ≠ .eof → Reaches r.rest t → Reaches r t

namespace Reader.Reaches

theorem trans {r t u : Reader} (h : r.Reaches t) (k : t.Reaches u) : r.Reaches u := by
  induction h with
  | refl => exact k
  | read hr _ ih => exact .read hr (ih k)

theorem rest {r : Reader} (h : r.next.kind ≠ .eof) : r.Reaches r.rest := .read h (.refl _)

theorem pending_suffix {r t : Reader} (h : r.Reaches t) : t.pending <:+ r.pending := by
  induction h with
  | refl => exact List.suffix_refl _
  | read hr _ ih =>
    rw [pending_eq_cons hr]
    exact ih.trans (List.suffix_cons _ _)

theorem left_le {r t : Reader} (h : r.Reaches t) : t.left ≤ r.left := h.pending_suffix.length_le

end Reader.Reaches

namespace Reader

theorem consumeIn_eq_ofTokens {tokens ts : List Token} {c : Cursor}
    (h : ts = tokens.drop c.index) :
    (consumeIn ts c).2 = ofTokens tokens (consumeIn ts c).2.cursor := by
  induction ts generalizing c with
  | nil =>
    rw [consumeIn, ofTokens, ← h]
  | cons x ts ih =>
    have hts : ts = tokens.drop (c.index + 1) := by
      rw [← List.drop_drop, ← h]
      rfl
    unfold consumeIn
    split
    · rw [ofTokens, ← hts]
    · exact ih hts

theorem Reaches.eq_ofTokens {tokens : List Token} {r t : Reader} (h : r.Reaches t)
    (hr : r = ofTokens tokens r.cursor) : t = ofTokens tokens t.cursor := by
  induction h with
  | refl => exact hr
  | read _ _ ih => exact ih (consumeIn_eq_ofTokens (congrArg Reader.ahead hr))

end Reader

/-- `t` differs from `s` only as a parser may have changed it. -/
structure State.Kept (s t : State) : Prop where
  depth : t.depth = s.depth
  faithful : s.interner.Faithful → t.interner.Faithful
  reaches : s.reader.Reaches t.reader
  log : s.log <:+ t.log

namespace State

variable {α : Type}

namespace Kept

theorem refl (s : State) : s.Kept s := ⟨rfl, id, .refl _, List.suffix_rfl⟩

theorem trans {s t u : State} (h : s.Kept t) (k : t.Kept u) : s.Kept u :=
  ⟨k.depth.trans h.depth, fun hf => k.faithful (h.faithful hf), h.reaches.trans k.reaches,
    h.log.trans k.log⟩

theorem left_le {s t : State} (h : s.Kept t) : t.left ≤ s.left := h.reaches.left_le

end Kept

theorem kept_record (s : State) (e : Event) : s.Kept (s.record e) :=
  ⟨rfl, id, .refl _, List.suffix_cons _ _⟩

theorem kept_withArena (s : State) (a : Arena) : s.Kept (s.withArena a) :=
  ⟨rfl, id, .refl _, List.suffix_append _ _⟩

theorem kept_skip {s : State} (h : s.nextKind ≠ .eof) : s.Kept s.skip :=
  ⟨rfl, id, .rest h, List.suffix_rfl⟩

theorem kept_openNode (s : State) (kind : NodeKind) (wanted : Nat) :
    s.Kept (s.openNode kind wanted).2 := s.kept_withArena _

theorem kept_append (s : State) (d : Draft) (child : Node) : s.Kept (s.append d child).2 :=
  s.kept_withArena _

theorem kept_intern (s : State) (text : String) : s.Kept (s.intern text).2 :=
  ⟨rfl, fun h => (h.intern s.arena text).2, .refl _, List.suffix_append _ _⟩

theorem kept_internToken (s : State) (token : Token) : s.Kept (s.internToken token).2 := by
  unfold internToken
  split
  · exact .refl s
  · exact s.kept_intern _

theorem kept_takeLeaf {s : State} (h : s.nextKind ≠ .eof) : s.Kept s.takeLeaf.2 :=
  ((kept_skip h).trans (kept_internToken _ _)).trans (kept_withArena _ _)

theorem kept_addLeaf {s : State} (d : Draft) (h : s.nextKind ≠ .eof) : s.Kept (s.addLeaf d).2 :=
  (kept_takeLeaf h).trans (kept_append _ _ _)

theorem kept_leave {s : State} (rule : Rule) {r : Result α} (h : (s.enter rule).Kept r.final) :
    s.Kept (s.leave rule r).final := by
  have hd : r.final.depth - 1 = s.depth := by rw [h.depth]; rfl
  have hl : s.log <:+ r.final.log := (List.suffix_cons _ _).trans h.log
  rcases r with ⟨_ | _ | _, t⟩
  · exact ⟨hd, h.faithful, h.reaches, hl⟩
  · exact ⟨hd, h.faithful, .refl _, hl.trans (List.suffix_cons _ _)⟩
  · exact ⟨hd, h.faithful, h.reaches, hl⟩

end State

namespace Parser

variable {α β : Type} {p : Parser α} {f : α → Parser β} {s : State}

theorem kept_bind (hp : s.Kept (p s).final)
    (hf : ∀ a t, p s = ⟨.matched a, t⟩ → t.Kept (f a t).final) : s.Kept ((p >>= f) s).final := by
  rw [bind_apply]
  rcases h : p s with ⟨a | _ | _, t⟩
  · rw [h] at hp
    exact hp.trans (hf a t h)
  · rwa [h] at hp
  · rwa [h] at hp

theorem kept_orElse {q : Parser α} (hp : s.Kept (p s).final)
    (hq : ∀ t, p s = ⟨.mismatch, t⟩ → t.Kept (q t).final) : s.Kept ((p.orElse q) s).final := by
  unfold Parser.orElse
  rcases h : p s with ⟨a | _ | _, t⟩
  · rwa [h] at hp
  · rw [h] at hp
    exact hp.trans (hq t h)
  · rwa [h] at hp

theorem kept_tryRule {limit : Option Nat} {rule : Rule}
    (hp : (s.enter rule).Kept (p (s.enter rule)).final) :
    s.Kept (tryRule limit rule p s).final := by
  unfold tryRule
  split
  · exact s.kept_record _
  · exact State.kept_leave rule hp

def Keeps (p : Parser α) : Prop := ∀ s : State, s.Kept (p s).final

namespace Keeps

theorem of_eq (h : Keeps p) {o : Outcome α} {t : State} (hp : p s = ⟨o, t⟩) : s.Kept t := by
  have := h s
  rwa [hp] at this

theorem andThen (hp : Keeps p) (hf : ∀ a, Keeps (f a)) : Keeps (p >>= f) :=
  fun s => kept_bind (hp s) fun a t _ => hf a t

theorem orElse {q : Parser α} (hp : Keeps p) (hq : Keeps q) : Keeps (p.orElse q) :=
  fun s => kept_orElse (hp s) fun t _ => hq t

theorem tryRule (hp : Keeps p) (limit : Option Nat) (rule : Rule) :
    Keeps (Parser.tryRule limit rule p) := fun _ => kept_tryRule (hp _)

end Keeps

theorem keeps_pure (a : α) : Keeps (pure a : Parser α) := State.Kept.refl

theorem keeps_openNode (kind : NodeKind) (wanted : Nat) : Keeps (openNode kind wanted) :=
  fun s => s.kept_openNode kind wanted

theorem keeps_append (d : Draft) (child : Node) : Keeps (append d child) :=
  fun s => s.kept_append d child

theorem keeps_nextKind : Keeps nextKind := State.Kept.refl

theorem keeps_nextLine : Keeps nextLine := State.Kept.refl

theorem keeps_refuseConstruct (construct : Construct) :
    Keeps (refuseConstruct construct : Parser α) := fun s => s.kept_record _

theorem keeps_expect {kind : TokenKind} (h : kind ≠ .eof) : Keeps (expect kind) := by
  intro s
  unfold expect
  split
  · next hk => exact State.kept_skip (hk ▸ h)
  · exact .refl s

section Leaf

variable {property : TokenKind → Bool} (h : property .eof = false) (d : Draft)

include h

private theorem ne_eof_of_property {k : TokenKind} (hk : property k = true) : k ≠ .eof := by
  rintro rfl
  simp [h] at hk

theorem keeps_requiredLeaf : Keeps (requiredLeaf property d) := by
  intro s
  unfold requiredLeaf
  split
  · next hk => exact State.kept_addLeaf d (ne_eof_of_property h hk)
  · exact .refl s

theorem keeps_optionalLeaf : Keeps (optionalLeaf property d) := by
  intro s
  unfold optionalLeaf
  split
  · next hk => exact State.kept_addLeaf d (ne_eof_of_property h hk)
  · exact .refl s

end Leaf

theorem keeps_nodeOf (kind : NodeKind) (line : Nat) (children : List Node) :
    Keeps (nodeOf kind line children) := by
  have fold (start : Draft × State) :
      start.2.Kept (children.foldl (fun r child => r.2.append r.1 child) start).2 := by
    induction children generalizing start with
    | nil => exact .refl _
    | cons c cs ih => exact (start.2.kept_append start.1 c).trans (ih _)
  intro s
  let d := Draft.empty kind line children.length
  exact (s.kept_withArena _).trans (fold (d, s.withArena (s.arena.reserveAll d.requests)))

end Parser

end MiniC
