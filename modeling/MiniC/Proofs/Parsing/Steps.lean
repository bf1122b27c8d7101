import MiniC.Proofs.Parsing.Frame
import MiniC.Proofs.Syntax.Words

namespace MiniC

open Syntax

namespace State

def pending (s : State) : List Token := s.reader.pending

variable {s : State} {x : Token} {rest : List Token}

theorem pending_eq_nil_iff : s.pending = [] ↔ s.nextKind = .eof := Reader.pending_eq_nil_iff _

theorem nextKind_ne_eof (h : s.pending = x :: rest) : s.nextKind ≠ .eof := by
  intro he
  simp [pending_eq_nil_iff.mpr he] at h

theorem next_of_pending (h : s.pending = x :: rest) :
    s.reader.next = x ∧ s.reader.rest.pending = rest := by
  have hc := Reader.pending_eq_cons (nextKind_ne_eof h)
  exact List.cons.inj (hc.symm.trans h)

theorem nextKind_of_pending (h : s.pending = x :: rest) : s.nextKind = x.kind :=
  congrArg Token.kind (next_of_pending h).1

theorem pending_skip (h : s.pending = x :: rest) : s.skip.pending = rest := (next_of_pending h).2

theorem nextKind_eq_of_pending {t : State} (h : t.pending = s.pending) :
    t.nextKind = s.nextKind := by
  cases hs : s.pending with
  | nil => rw [pending_eq_nil_iff.mp hs, pending_eq_nil_iff.mp (h.trans hs)]
  | cons x l => rw [nextKind_of_pending hs, nextKind_of_pending (h.trans hs)]

theorem kind_ne_newline (h : s.pending = x :: rest) : x.kind ≠ .newline := by
  have hx : x ∈ s.reader.pending := by
    rw [show s.reader.pending = x :: rest from h]
    simp
  have hs := (List.mem_filter.mp ((List.takeWhile_prefix _).subset hx)).2
  intro hk
  simp [Token.isSignificant, hk, TokenKind.isSignificant] at hs

theorem exists_pending {k : TokenKind} (h : s.nextKind = k) (hk : k ≠ .eof) :
    ∃ x rest, s.pending = x :: rest ∧ x.kind = k := by
  cases hp : s.pending with
  | nil => exact absurd (h.symm.trans (pending_eq_nil_iff.mp hp)) hk
  | cons x rest => exact ⟨x, rest, rfl, (nextKind_of_pending hp).symm.trans h⟩

def kinds (s : State) : Grammar.Word := s.pending.map Token.kind

theorem exists_kinds {k : TokenKind} {r : Grammar.Word} (h : s.kinds = k :: r) :
    ∃ x rest, s.pending = x :: rest ∧ x.kind = k ∧ rest.map Token.kind = r :=
  List.map_eq_cons_iff.mp h

theorem kinds_of_written {p : List Sign} (h : WrittenUpTo p s.pending rest) :
    s.kinds = p.map Sign.kind ++ rest.map Token.kind := h.kinds

theorem nextKind_of_kinds {k : TokenKind} {r : Grammar.Word} (h : s.kinds = k :: r) :
    s.nextKind = k := by
  obtain ⟨x, rest, hx, hk, _⟩ := exists_kinds h
  exact (nextKind_of_pending hx).trans hk

/-- The next kind lacks a property that none of the kinds that may come next has. -/
theorem property_nextKind_eq_false {property : TokenKind → Bool} (he : property .eof = false)
    (h : ∀ k ∈ s.kinds.head?, property k = false) : property s.nextKind = false := by
  cases hk : s.kinds with
  | nil => rwa [pending_eq_nil_iff.mp (List.map_eq_nil_iff.mp hk)]
  | cons k r =>
    rw [nextKind_of_kinds hk]
    exact h k (by simp [hk])

theorem pending_takeLeaf (h : s.pending = x :: rest) : s.takeLeaf.2.pending = rest := by
  simpa [pending] using (next_of_pending h).2

theorem pending_addLeaf (d : Draft) (h : s.pending = x :: rest) :
    (s.addLeaf d).2.pending = rest := by
  simpa [pending] using (next_of_pending h).2

theorem kinds_skip {k : TokenKind} {r : Grammar.Word} (h : s.kinds = k :: r) :
    s.skip.kinds = r := by
  obtain ⟨x, rest, hx, _, hr⟩ := exists_kinds h
  rw [kinds, pending_skip hx, hr]

theorem kinds_addLeaf (d : Draft) {k : TokenKind} {r : Grammar.Word} (h : s.kinds = k :: r) :
    (s.addLeaf d).2.kinds = r := by
  obtain ⟨x, rest, hx, _, hr⟩ := exists_kinds h
  rw [kinds, pending_addLeaf d hx, hr]

theorem internToken_text (hf : s.interner.Faithful) (t : Token) :
    (s.internToken t).1.map (·.text) = t.identifier? := by
  unfold internToken
  split
  · next h => simp [h]
  · next text h => exact (congrArg some (hf.intern s.arena text).1).trans h.symm

theorem shape_takeLeaf (hf : s.interner.Faithful) (h : s.pending = x :: rest) :
    s.takeLeaf.1.shape = (Leaf.ofToken x).shape := by
  have ht := internToken_text (s := s.skip) hf x
  rw [Node.shape_eq]
  simp [takeLeaf, Draft.leaf, Draft.close, Node.spelling?, Leaf.shape, Leaf.ofToken,
    nextKind_of_pending h, (next_of_pending h).1, ht]

end State

/-- The node got the children `cs` behind those that it had. -/
structure Draft.Extends (d : Draft) (cs : List Shape) (d' : Draft) : Prop where
  kind : d'.kind = d.kind
  text : d'.text? = d.text?
  children : d'.children.toList.map Node.shape = d.children.toList.map Node.shape ++ cs

namespace Draft.Extends

theorem refl (d : Draft) : d.Extends [] d := ⟨rfl, rfl, by simp⟩

theorem trans {d d' d'' : Draft} {cs cs' : List Shape} (h : d.Extends cs d')
    (k : d'.Extends cs' d'') : d.Extends (cs ++ cs') d'' :=
  ⟨k.kind.trans h.kind, k.text.trans h.text, by rw [k.children, h.children, List.append_assoc]⟩

theorem push (d : Draft) (n : Node) : d.Extends [n.shape] (d.push n) := ⟨rfl, rfl, by simp⟩

theorem shape_close {kind : NodeKind} {line wanted : Nat} {cs : List Shape} {d : Draft}
    (h : (Draft.empty kind line wanted).Extends cs d) : d.close.shape = ⟨kind, none, cs⟩ := by
  rw [Node.shape_eq]
  simp [close, Node.spelling?, h.kind, h.text, h.children, empty]

end Draft.Extends

theorem State.extends_addLeaf {s : State} {x : Token} {rest : List Token} (d : Draft)
    (hf : s.interner.Faithful) (h : s.pending = x :: rest) :
    d.Extends [(Leaf.ofToken x).shape] (s.addLeaf d).1 := by
  rw [← State.shape_takeLeaf hf h]
  exact .push d _

/-- So many rules may be in progress at once. -/
def Room (limit : Option Nat) (depth : Nat) : Prop := ∀ l ∈ limit, depth ≤ l

theorem room_none (depth : Nat) : Room none depth := by simp [Room]

theorem Room.mono {limit : Option Nat} {m n : Nat} (h : Room limit n) (hm : m ≤ n) :
    Room limit m := fun l hl => Nat.le_trans hm (h l hl)

theorem State.isFull_eq_false_iff {s : State} {limit : Option Nat} :
    s.isFull limit = false ↔ Room limit (s.depth + 1) := by
  cases limit with
  | none => exact iff_of_true rfl (room_none _)
  | some l =>
    simp only [isFull, Room, decide_eq_false_iff_not, Option.mem_some_iff, forall_eq']
    omega

theorem Result.fatal_inj {α : Type} {e e' : ParseError} {t t' : State}
    (h : (⟨.fatal e, t⟩ : Result α) = ⟨.fatal e', t'⟩) : e = e' ∧ t = t' := by
  obtain ⟨he, ht⟩ := Result.mk.inj h
  exact ⟨Outcome.fatal.inj he, ht⟩

namespace Parser

variable {α β : Type} {p : Parser α} {f : α → Parser β} {s t : State} {a : α} {b : β}
  {limit : Option Nat} {rule : Rule}

theorem bind_of_matched (h : p s = ⟨.matched a, t⟩) : (p >>= f) s = f a t := by
  rw [bind_apply, h]
  rfl

theorem bind_of_mismatch (h : p s = ⟨.mismatch, t⟩) : (p >>= f) s = ⟨.mismatch, t⟩ := by
  rw [bind_apply, h]
  rfl

theorem bind_of_fatal {e : ParseError} (h : p s = ⟨.fatal e, t⟩) : (p >>= f) s = ⟨.fatal e, t⟩ := by
  rw [bind_apply, h]
  rfl

theorem bind_congr_of_matched {g : α → Parser β}
    (h : ∀ a t, p s = ⟨.matched a, t⟩ → f a t = g a t) : (p >>= f) s = (p >>= g) s := by
  rw [bind_apply, bind_apply]
  rcases hp : p s with ⟨a | _ | e, t⟩
  · exact h a t hp
  · rfl
  · rfl

theorem bind_eq_matched {u : State} (h : (p >>= f) s = ⟨.matched b, u⟩) :
    ∃ a t, p s = ⟨.matched a, t⟩ ∧ f a t = ⟨.matched b, u⟩ := by
  rw [bind_apply] at h
  rcases hp : p s with ⟨a | _ | _, t⟩
  · exact ⟨a, t, rfl, by rwa [hp] at h⟩
  · simp [hp] at h
  · simp [hp] at h

theorem pure_eq_matched {b : α} (h : (pure a : Parser α) s = ⟨.matched b, t⟩) : b = a ∧ t = s := by
  obtain ⟨hb, rfl⟩ := Result.mk.inj h
  exact ⟨(Outcome.matched.inj hb).symm, rfl⟩

theorem step_eq_matched {g : State → α × State} (h : step g s = ⟨.matched a, t⟩) :
    a = (g s).1 ∧ t = (g s).2 := by
  obtain ⟨ha, rfl⟩ := Result.mk.inj h
  exact ⟨(Outcome.matched.inj ha).symm, rfl⟩

theorem bind_eq_fatal {e : ParseError} {u : State} (h : (p >>= f) s = ⟨.fatal e, u⟩) :
    p s = ⟨.fatal e, u⟩ ∨ ∃ a t, p s = ⟨.matched a, t⟩ ∧ f a t = ⟨.fatal e, u⟩ := by
  rw [bind_apply] at h
  rcases hp : p s with ⟨a | _ | _, t⟩
  · exact .inr ⟨a, t, rfl, by rwa [hp] at h⟩
  · simp [hp] at h
  · rw [hp, Result.andThen_fatal] at h
    obtain ⟨rfl, rfl⟩ := Result.fatal_inj h
    exact .inl rfl

theorem orElse_of_mismatch {q : Parser α} (h : p s = ⟨.mismatch, t⟩) : (p.orElse q) s = q t := by
  unfold Parser.orElse
  rw [h]

theorem orElse_of_matched {q : Parser α} (h : p s = ⟨.matched a, t⟩) :
    (p.orElse q) s = ⟨.matched a, t⟩ := by
  unfold Parser.orElse
  rw [h]

theorem orElse_of_fatal {q : Parser α} {e : ParseError} (h : p s = ⟨.fatal e, t⟩) :
    (p.orElse q) s = ⟨.fatal e, t⟩ := by
  unfold Parser.orElse
  rw [h]

theorem orElse_eq_matched {q : Parser α} (h : (p.orElse q) s = ⟨.matched a, t⟩) :
    p s = ⟨.matched a, t⟩ ∨ ∃ u, p s = ⟨.mismatch, u⟩ ∧ q u = ⟨.matched a, t⟩ := by
  unfold Parser.orElse at h
  rcases hp : p s with ⟨b | _ | _, u⟩
  · exact .inl (by rwa [hp] at h)
  · exact .inr ⟨u, rfl, by rwa [hp] at h⟩
  · simp [hp] at h

theorem orElse_eq_fatal {q : Parser α} {e : ParseError} (h : (p.orElse q) s = ⟨.fatal e, t⟩) :
    p s = ⟨.fatal e, t⟩ ∨ ∃ u, p s = ⟨.mismatch, u⟩ ∧ q u = ⟨.fatal e, t⟩ := by
  unfold Parser.orElse at h
  rcases hp : p s with ⟨b | _ | _, u⟩
  · simp [hp] at h
  · exact .inr ⟨u, rfl, by rwa [hp] at h⟩
  · exact .inl (by rwa [hp] at h)

theorem orElse_eq_mismatch {q : Parser α} (h : (p.orElse q) s = ⟨.mismatch, t⟩) :
    ∃ u, p s = ⟨.mismatch, u⟩ ∧ q u = ⟨.mismatch, t⟩ := by
  unfold Parser.orElse at h
  rcases hp : p s with ⟨b | _ | _, u⟩
  · simp [hp] at h
  · exact ⟨u, rfl, by rwa [hp] at h⟩
  · simp [hp] at h

theorem tryRule_of_full (h : ¬Room limit (s.depth + 1)) :
    tryRule limit rule p s = s.refuse rule := by
  rw [← State.isFull_eq_false_iff, Bool.not_eq_false] at h
  rw [tryRule, if_pos h]

theorem tryRule_of_room (h : Room limit (s.depth + 1)) :
    tryRule limit rule p s = s.leave rule (p (s.enter rule)) := by
  rw [tryRule, State.isFull_eq_false_iff.mpr h]
  rfl

theorem tryRule_of_matched (h : Room limit (s.depth + 1))
    (hp : p (s.enter rule) = ⟨.matched a, t⟩) :
    tryRule limit rule p s = ⟨.matched a, { t with depth := t.depth - 1 }⟩ := by
  rw [tryRule_of_room h, hp]
  rfl

theorem tryRule_of_fatal {e : ParseError} (h : Room limit (s.depth + 1))
    (hp : p (s.enter rule) = ⟨.fatal e, t⟩) :
    tryRule limit rule p s = ⟨.fatal e, { t with depth := t.depth - 1 }⟩ := by
  rw [tryRule_of_room h, hp]
  rfl

theorem tryRule_eq_matched (h : tryRule limit rule p s = ⟨.matched a, t⟩) :
    ∃ u, p (s.enter rule) = ⟨.matched a, u⟩ ∧ t.pending = u.pending := by
  by_cases hr : Room limit (s.depth + 1)
  · rw [tryRule_of_room hr] at h
    rcases hp : p (s.enter rule) with ⟨b | _ | _, u⟩ <;> rw [hp] at h
    · obtain ⟨hb, rfl⟩ := Result.mk.inj h
      exact ⟨u, by rw [hb], rfl⟩
    · simp [State.leave] at h
    · simp [State.leave] at h
  · simp [tryRule_of_full hr, State.refuse] at h

theorem room_of_matched (h : tryRule limit rule p s = ⟨.matched a, t⟩) :
    Room limit (s.depth + 1) := by
  by_contra hr
  simp [tryRule_of_full hr, State.refuse] at h

theorem tryRule_eq_mismatch (h : tryRule limit rule p s = ⟨.mismatch, t⟩) :
    Room limit (s.depth + 1) ∧ t.pending = s.pending ∧ ∃ u, p (s.enter rule) = ⟨.mismatch, u⟩ := by
  by_cases hr : Room limit (s.depth + 1)
  · rw [tryRule_of_room hr] at h
    rcases hp : p (s.enter rule) with ⟨b | _ | _, u⟩ <;> rw [hp] at h
    · simp [State.leave] at h
    · obtain ⟨_, rfl⟩ := Result.mk.inj h
      exact ⟨hr, rfl, u, rfl⟩
    · simp [State.leave] at h
  · simp [tryRule_of_full hr, State.refuse] at h

theorem tryRule_eq_fatal {e : ParseError} (hr : Room limit (s.depth + 1))
    (h : tryRule limit rule p s = ⟨.fatal e, t⟩) :
    ∃ u, p (s.enter rule) = ⟨.fatal e, u⟩ ∧ t = { u with depth := u.depth - 1 } := by
  rw [tryRule_of_room hr] at h
  rcases hp : p (s.enter rule) with ⟨b | _ | _, u⟩ <;> rw [hp] at h
  · simp [State.leave] at h
  · simp [State.leave] at h
  · obtain ⟨rfl, rfl⟩ := Result.fatal_inj h
    exact ⟨u, rfl, rfl⟩

theorem expect_of_pending {k : TokenKind} {x : Token} {rest : List Token}
    (h : s.pending = x :: rest) (hk : x.kind = k) : expect k s = ⟨.matched (), s.skip⟩ := by
  rw [expect, if_pos ((State.nextKind_of_pending h).trans hk)]

theorem expect_eq_matched {k : TokenKind} {u : Unit} (hk : k ≠ .eof)
    (h : expect k s = ⟨.matched u, t⟩) : ∃ x, s.pending = x :: t.pending ∧ x.kind = k := by
  unfold expect at h
  split at h
  · next hn =>
    obtain ⟨x, rest, hx, hxk⟩ := State.exists_pending hn hk
    obtain ⟨_, rfl⟩ := Result.mk.inj h
    exact ⟨x, by rw [hx, State.pending_skip hx], hxk⟩
  · simp at h

theorem expect_ne_fatal {k : TokenKind} {e : ParseError} : expect k s ≠ ⟨.fatal e, t⟩ := by
  unfold expect
  split <;> simp

/-- Gives up only where there is no room for so many more rules. -/
def Mild (limit : Option Nat) (rules : Nat) (p : Parser α) : Prop :=
  ∀ s : State, Room limit (s.depth + rules) → ∀ e t, p s ≠ ⟨.fatal e, t⟩

namespace Mild

variable {k m : Nat}

theorem of_never (h : ∀ s e t, p s ≠ ⟨.fatal e, t⟩) : Mild limit k p := fun s _ => h s

theorem mono (h : Mild limit k p) (hk : k ≤ m) : Mild limit m p :=
  fun s hr => h s (hr.mono (Nat.add_le_add_left hk _))

theorem andThen (hk : Keeps p) (hp : Mild limit k p) (hf : ∀ a, Mild limit k (f a)) :
    Mild limit k (p >>= f) := by
  intro s hr e u h
  rcases bind_eq_fatal h with h | ⟨a, t, ht, h⟩
  · exact hp s hr e u h
  · exact hf a t (by rwa [(hk.of_eq ht).depth]) e u h

theorem tryRule (hp : Mild limit k p) (rule : Rule) :
    Mild limit (k + 1) (Parser.tryRule limit rule p) := by
  intro s hr e t h
  obtain ⟨u, hu, -⟩ := tryRule_eq_fatal (hr.mono (by omega)) h
  exact hp (s.enter rule) (hr.mono (by simp only [State.enter]; omega)) e u hu

theorem exists_mismatch (hp : Mild limit k p) (hr : Room limit (s.depth + k))
    (h : ∀ a t, p s ≠ ⟨.matched a, t⟩) : ∃ t, p s = ⟨.mismatch, t⟩ := by
  rcases he : p s with ⟨a | _ | e, t⟩
  · exact absurd he (h a t)
  · exact ⟨t, rfl⟩
  · exact absurd he (hp s hr e t)

end Mild

theorem mild_pure (a : α) {k : Nat} : Mild limit k (pure a : Parser α) :=
  .of_never fun s e t h => by simp [pure_apply] at h

theorem mild_step (g : State → α × State) {k : Nat} : Mild limit k (step g) :=
  .of_never fun s e t h => by simp [step] at h

theorem mild_expect (kind : TokenKind) {k : Nat} : Mild limit k (expect kind) :=
  .of_never fun _ _ _ => expect_ne_fatal

theorem mild_requiredLeaf (property : TokenKind → Bool) (d : Draft) {k : Nat} :
    Mild limit k (requiredLeaf property d) := by
  refine .of_never fun s e t h => ?_
  unfold requiredLeaf at h
  split at h <;> simp [step] at h

theorem mild_optionalLeaf (property : TokenKind → Bool) (d : Draft) {k : Nat} :
    Mild limit k (optionalLeaf property d) := by
  refine .of_never fun s e t h => ?_
  unfold optionalLeaf at h
  split at h <;> simp [step] at h

theorem mild_nodeOf (kind : NodeKind) (line : Nat) (children : List Node) {k : Nat} :
    Mild limit k (nodeOf kind line children) :=
  .of_never fun s e t h => by simp [nodeOf] at h

end Parser

end MiniC
