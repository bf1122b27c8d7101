import MiniC.Proofs.Arena.Performing
import MiniC.Proofs.Arena.Readback
import MiniC.Proofs.Interning.Exact

namespace MiniC

/-- No command changes a text. -/
theorem Contents.getElem?_record_of_text {known : List Contents} {k : Nat} {text : String}
    (h : known[k]? = some (.text text)) (c : Heap.Command) :
    (record known c)[k]? = some (.text text) := by
  have happend (more : List Contents) : (known ++ more)[k]? = some (.text text) := by
    rw [List.getElem?_append_left (List.getElem?_eq_some_iff.mp h).1, h]
  have hset {i : Nat} {old new : Contents} (hold : known[i]? = some old)
      (hne : old ≠ .text text) : (known.set i new)[k]? = some (.text text) := by
    rw [List.getElem?_set_ne, h]
    rintro rfl
    exact hne (Option.some.inj (hold.symm.trans h))
  cases c with
  | allocate | allocateSized | value | slice | text => exact happend _
  | resize | lengthen =>
    simp only [record]
    split
    · exact happend _
    · exact h
  | setElement | setByte | fill =>
    simp only [record]
    split
    · next hold => exact hset hold (by simp)
    · exact h

theorem Heap.granted_le_of_run {h after : Heap} {c : Command} (hrun : h.run c = .ok after) :
    h.arena.granted ≤ after.arena.granted := by
  rcases run_cases hrun with ⟨-, harena, -⟩ | ⟨r, -, x, halloc, -⟩
  · rw [harena]
  · exact Nat.le_of_lt (Arena.granted_lt_of_allocate halloc)

/-- An arena with its memory, and the texts that are interned there. -/
structure Shelf where
  heap : Heap
  interner : Interner

namespace Shelf

/-- The stored text of a spelling. If it was not stored before, its bytes are put into the arena now,
unless that is refused. -/
def intern (s : Shelf) (text : String) : Except Fault (StoredText × Shelf) :=
  let (stored, interner, _) := s.interner.intern s.heap.arena text
  if s.interner.texts[text]?.isSome then .ok (stored, s)
  else (s.heap.run (.text text)).map fun heap => (stored, ⟨heap, interner⟩)

variable {s t : Shelf} {text : String} {x : StoredText}

theorem intern_of_some (h : s.interner.texts[text]? = some x) : s.intern text = .ok (x, s) := by
  rw [intern, Interner.intern_of_some h, h]
  rfl

theorem intern_of_none (h : s.interner.texts[text]? = none) (hcall : s.intern text = .ok (x, t)) :
    s.heap.run (.text text) = .ok t.heap ∧
      s.interner.intern s.heap.arena text = (x, t.interner, t.heap.arena) ∧
      t.heap.handles = s.heap.handles.push (.text x.region) := by
  rw [intern, Interner.intern_of_none h, h] at hcall
  cases hrun : s.heap.run (.text text) with
  | error fault => simp [hrun, Except.map] at hcall
  | ok heap =>
    obtain ⟨rfl, rfl⟩ : (s.heap.arena.store text).1 = x ∧
        ⟨heap, ⟨s.interner.texts.insert text (s.heap.arena.store text).1⟩⟩ = t := by
      simpa [hrun, Except.map] using hcall
    obtain ⟨region, halloc, hhandles⟩ := Heap.grant_eq_ok (by simpa only [Heap.run] using hrun)
    have hreserve := Arena.reserve_text_of_allocate halloc
    rw [Interner.intern_of_none h, Arena.store, hreserve]
    exact ⟨rfl, rfl, hhandles⟩

/-- A call is refused for a new spelling only, and only where the arena refuses its text. -/
theorem intern_eq_error_iff {fault : Fault} : s.intern text = .error fault ↔
    s.interner.texts[text]? = none ∧ s.heap.arena.allocate (.text text) = .error fault := by
  cases h : s.interner.texts[text]? with
  | some x => simp [intern_of_some h]
  | none =>
    have hrun : s.heap.run (.text text) = .error fault ↔
        s.heap.arena.allocate (.text text) = .error fault := by
      simp only [Heap.run, Heap.grant]
      cases s.heap.arena.allocate (.text text) <;> simp [Except.map]
    rw [intern, h, ← hrun]
    cases s.heap.run (.text text) <;> simp [Except.map]

end Shelf

/-- A shelf with what was asked for so far and what the answers were, in this order. -/
structure Ledger where
  shelf : Shelf
  answers : List (String × StoredText)

namespace Ledger

inductive Call where
  | intern (text : String)
  | other (c : Heap.Command)

def opened (a : Arena) : Ledger := ⟨⟨.empty a, .empty⟩, []⟩

/-- What a call leaves. A refused one changes nothing. -/
def call (l : Ledger) : Call → Ledger
  | .other c => { l with shelf.heap := l.shelf.heap.attempt c }
  | .intern text =>
    match l.shelf.intern text with
    | .ok (stored, shelf) => ⟨shelf, l.answers ++ [(text, stored)]⟩
    | .error _ => l

def callAll (l : Ledger) : List Call → Ledger
  | [] => l
  | c :: cs => (l.call c).callAll cs

/-- The interner is exact, and what was answered is what was asked for. -/
structure Sound (l : Ledger) : Prop where
  exact : l.shelf.interner.Exact l.shelf.heap.arena.granted (l.answers.map Prod.snd)
  asked : ∀ p ∈ l.answers, p.2.text = p.1

/-- The contents of the handles include all answers. -/
def Shown (l : Ledger) : Prop :=
  ∃ known, l.shelf.heap.Tracks known ∧ ∀ p ∈ l.answers, ∃ k : Nat,
    l.shelf.heap.handles[k]? = some (Handle.text p.2.region) ∧ known[k]? = some (Contents.text p.1)

variable {l : Ledger} {text : String} {x : StoredText} {t : Shelf}

/-- A call answers as before, stores a new text, or has nothing to do with texts. -/
theorem call_cases (l : Ledger) (c : Call) :
    (∃ text x, l.shelf.interner.texts[text]? = some x ∧
      l.call c = ⟨l.shelf, l.answers ++ [(text, x)]⟩) ∨
    (∃ text x t, l.shelf.interner.texts[text]? = none ∧
      l.shelf.heap.run (.text text) = .ok t.heap ∧
      l.shelf.interner.intern l.shelf.heap.arena text = (x, t.interner, t.heap.arena) ∧
      t.heap.handles = l.shelf.heap.handles.push (.text x.region) ∧
      l.call c = ⟨t, l.answers ++ [(text, x)]⟩) ∨
    (∃ command heap, l.shelf.heap.run command = .ok heap ∧
      l.call c = ⟨⟨heap, l.shelf.interner⟩, l.answers⟩) ∨
    l.call c = l := by
  cases c with
  | other command =>
    simp only [call, Heap.attempt]
    cases hrun : l.shelf.heap.run command with
    | ok heap => exact .inr (.inr (.inl ⟨command, heap, hrun, rfl⟩))
    | error fault => exact .inr (.inr (.inr rfl))
  | intern text =>
    simp only [call]
    cases hcall : l.shelf.intern text with
    | error fault => exact .inr (.inr (.inr rfl))
    | ok answer =>
      obtain ⟨x, t⟩ := answer
      cases hs : l.shelf.interner.texts[text]? with
      | some y =>
        rw [Shelf.intern_of_some hs] at hcall
        obtain ⟨rfl, rfl⟩ := Prod.mk.inj (Except.ok.inj hcall)
        exact .inl ⟨text, y, hs, rfl⟩
      | none =>
        obtain ⟨hrun, hintern, hhandles⟩ := Shelf.intern_of_none hs hcall
        exact .inr (.inl ⟨text, x, t, hs, hrun, hintern, hhandles, rfl⟩)

namespace Sound

theorem opened (a : Arena) : (opened a).Sound :=
  ⟨Interner.exact_empty _, by simp [Ledger.opened]⟩

theorem stored (h : l.Sound) {p : String × StoredText} (hp : p ∈ l.answers) :
    l.shelf.interner.texts[p.1]? = some p.2 :=
  (h.exact.stored p.1 p.2).mpr ⟨List.mem_map_of_mem hp, h.asked p hp⟩

theorem mem_of_stored (h : l.Sound) (hx : l.shelf.interner.texts[text]? = some x) :
    (text, x) ∈ l.answers := by
  obtain ⟨hmem, rfl⟩ := (h.exact.stored text x).mp hx
  obtain ⟨p, hp, rfl⟩ := List.mem_map.mp hmem
  rwa [h.asked p hp]

theorem call (h : l.Sound) (c : Call) : (l.call c).Sound := by
  obtain ⟨text, x, hs, hc⟩ | ⟨text, x, t, -, -, hintern, -, hc⟩ | ⟨command, heap, hrun, hc⟩ | hc :=
    l.call_cases c <;> rw [hc]
  · have hp := h.mem_of_stored hs
    refine ⟨by simpa using h.exact.again (List.mem_map_of_mem hp), ?_⟩
    exact List.forall_mem_append.mpr ⟨h.asked, by simpa using h.asked _ hp⟩
  · have hexact := h.exact.intern text
    have htext := (h.exact.faithful.intern l.shelf.heap.arena text).1
    rw [hintern] at hexact htext
    exact ⟨by simpa using hexact, List.forall_mem_append.mpr ⟨h.asked, by simpa using htext⟩⟩
  · exact ⟨h.exact.mono (Heap.granted_le_of_run hrun), h.asked⟩
  · exact h

theorem callAll (h : l.Sound) (calls : List Call) : (l.callAll calls).Sound := by
  induction calls generalizing l with
  | nil => exact h
  | cons c cs ih => exact ih (h.call c)

end Sound

/-- A new text gets a handle of its own; whatever else happens, the handles of the others are kept and
no text is overwritten. -/
theorem Shown.call (h : l.Shown) (hsound : l.Sound) (c : Call)
    (hd : (l.call c).shelf.heap.arena.chain.Pairwise Block.Disjoint) : (l.call c).Shown := by
  obtain ⟨known, htracks, hshown⟩ := h
  have hkept {command : Heap.Command} {heap : Heap} (hrun : l.shelf.heap.run command = .ok heap)
      (p : String × StoredText) (hp : p ∈ l.answers) : ∃ k : Nat,
      heap.handles[k]? = some (Handle.text p.2.region) ∧
        (Contents.record known command)[k]? = some (Contents.text p.1) := by
    obtain ⟨k, hk, hc⟩ := hshown p hp
    exact ⟨k, Heap.extends_run hrun k _ hk, Contents.getElem?_record_of_text hc command⟩
  obtain ⟨text, x, hs, hc⟩ | ⟨text, x, t, -, hrun, -, hhandles, hc⟩ | ⟨command, heap, hrun, hc⟩ | hc :=
    l.call_cases c <;> rw [hc] at hd ⊢
  · have hp := hshown _ (hsound.mem_of_stored hs)
    exact ⟨known, htracks, List.forall_mem_append.mpr ⟨hshown, by simpa using hp⟩⟩
  · have hlast : (known ++ [.text text])[known.length]? = some (Contents.text text) :=
      List.getElem?_concat_length ..
    have hpush : t.heap.handles[known.length]? = some (.text x.region) := by
      rw [hhandles, ← htracks.length, Array.getElem?_push_size]
    refine ⟨known ++ [.text text], htracks.run hrun hd, ?_⟩
    exact List.forall_mem_append.mpr ⟨hkept hrun, by simpa using ⟨_, hpush, hlast⟩⟩
  · exact ⟨_, htracks.run hrun hd, hkept hrun⟩
  · exact ⟨known, htracks, hshown⟩

theorem disjoint_of_callAll {calls : List Call}
    (hd : (l.callAll calls).shelf.heap.arena.chain.Pairwise Block.Disjoint) :
    l.shelf.heap.arena.chain.Pairwise Block.Disjoint := by
  induction calls generalizing l with
  | nil => exact hd
  | cons c cs ih =>
    have hcall := ih hd
    have hbefore {command : Heap.Command} {after : Heap} (hrun : l.shelf.heap.run command = .ok after)
        (hafter : after.arena.chain.Pairwise Block.Disjoint) :
        l.shelf.heap.arena.chain.Pairwise Block.Disjoint :=
      Heap.disjoint_of_perform (Heap.perform_singleton.trans hrun) hafter
    obtain ⟨_, _, -, hc⟩ | ⟨_, _, _, -, hrun, -, -, hc⟩ | ⟨_, _, hrun, hc⟩ | hc := l.call_cases c <;>
      rw [hc] at hcall
    · exact hcall
    · exact hbefore hrun hcall
    · exact hbefore hrun hcall
    · exact hcall

theorem shown_opened (a : Arena) : (opened a).Shown := ⟨[], Heap.tracks_empty a, by simp [opened]⟩

theorem Shown.callAll (h : l.Shown) (hsound : l.Sound) {calls : List Call}
    (hd : (l.callAll calls).shelf.heap.arena.chain.Pairwise Block.Disjoint) :
    (l.callAll calls).Shown := by
  induction calls generalizing l with
  | nil => exact h
  | cons c cs ih => exact ih (h.call hsound c (disjoint_of_callAll hd)) (hsound.call c) hd

theorem Shown.string_eq (h : l.Shown) {p : String × StoredText} (hp : p ∈ l.answers) :
    l.shelf.heap.string? p.2.region = some p.1 := by
  obtain ⟨known, htracks, hshown⟩ := h
  obtain ⟨k, hk, hc⟩ := hshown p hp
  obtain ⟨hmatch, hholds⟩ := htracks.behind k _ _ hk hc
  exact Heap.shows_of_matches hmatch hholds

/-- Interning is exact: what was answered so far is what was asked for, in regions of their own, one for
each spelling; and what the next call does for any spelling. -/
structure Exact (l : Ledger) : Prop where
  text_eq : ∀ p ∈ l.answers, p.2.text = p.1
  serial_eq_iff : ∀ p ∈ l.answers, ∀ q ∈ l.answers,
    p.2.region.serial = q.2.region.serial ↔ p.1 = q.1
  answer_eq : ∀ p ∈ l.answers, ∀ q ∈ l.answers, p.1 = q.1 → p.2 = q.2
  size_eq : l.shelf.interner.size = (l.answers.map Prod.fst).toFinset.card
  /-- The next call for a spelling that was asked for before changes nothing. -/
  again : ∀ p ∈ l.answers, l.shelf.intern p.1 = .ok (p.2, l.shelf)
  /-- The next call for a new one adds the bytes of its text. -/
  new : ∀ text, text ∉ l.answers.map Prod.fst → ∀ x t, l.shelf.intern text = .ok (x, t) →
    x.text = text ∧ t.interner.size = l.shelf.interner.size + 1 ∧
      t.heap.arena.counts.allocated = l.shelf.heap.arena.counts.allocated + text.utf8ByteSize ∧
      l.shelf.interner.intern l.shelf.heap.arena text = (x, t.interner, t.heap.arena)
  /-- It is refused only if the arena refuses the text. -/
  refused : ∀ text fault, l.shelf.intern text = .error fault ↔
    text ∉ l.answers.map Prod.fst ∧ l.shelf.heap.arena.allocate (.text text) = .error fault

namespace Sound

theorem texts_eq (h : l.Sound) :
    (l.answers.map Prod.snd).map StoredText.text = l.answers.map Prod.fst := by
  rw [List.map_map]
  exact List.map_congr_left h.asked

theorem stored_eq_none_iff (h : l.Sound) :
    l.shelf.interner.texts[text]? = none ↔ text ∉ l.answers.map Prod.fst := by
  rw [← h.texts_eq, ← h.exact.isSome_iff, Option.not_isSome_iff_eq_none]

theorem new (h : l.Sound) (hnew : text ∉ l.answers.map Prod.fst)
    (hcall : l.shelf.intern text = .ok (x, t)) :
    x.text = text ∧ t.interner.size = l.shelf.interner.size + 1 ∧
      t.heap.arena.counts.allocated = l.shelf.heap.arena.counts.allocated + text.utf8ByteSize ∧
      l.shelf.interner.intern l.shelf.heap.arena text = (x, t.interner, t.heap.arena) := by
  have hnone := h.stored_eq_none_iff.mpr hnew
  obtain ⟨-, hintern, -⟩ := Shelf.intern_of_none hnone hcall
  have htext := (h.exact.faithful.intern l.shelf.heap.arena text).1
  rw [hintern] at htext
  obtain ⟨-, heq⟩ := Prod.mk.inj (hintern.symm.trans (Interner.intern_of_none hnone _))
  obtain ⟨hinterner, harena⟩ := Prod.mk.inj heq
  refine ⟨htext, ?_, ?_, hintern⟩
  · rw [hinterner, Interner.size, Std.TreeMap.size_insert, if_neg]
    · rfl
    · rw [Std.TreeMap.contains_eq_isSome_getElem?, hnone]
      simp
  · rw [harena, Arena.allocated_reserve_text]

theorem ledger_exact (h : l.Sound) : l.Exact where
  text_eq := h.asked
  serial_eq_iff p hp q hq := by
    rw [← h.asked p hp, ← h.asked q hq]
    exact h.exact.serial_eq_iff (List.mem_map_of_mem hp) (List.mem_map_of_mem hq)
  answer_eq p hp q hq heq := by
    have hstored := h.stored hp
    rw [heq, h.stored hq] at hstored
    exact (Option.some.inj hstored).symm
  size_eq := by rw [h.exact.size_eq, h.texts_eq]
  again _ hp := Shelf.intern_of_some (h.stored hp)
  new _ hnew _ _ hcall := h.new hnew hcall
  refused text fault := by rw [Shelf.intern_eq_error_iff, h.stored_eq_none_iff]

end Sound

theorem exact_of_calls (a : Arena) (calls : List Call) : ((opened a).callAll calls).Exact :=
  ((Sound.opened a).callAll calls).ledger_exact

/-- The answers stay readable. No more is asked of the blocks than to be disjoint. -/
theorem string_eq_of_calls (a : Arena) (calls : List Call)
    (hd : ((opened a).callAll calls).shelf.heap.arena.chain.Pairwise Block.Disjoint)
    {p : String × StoredText} (hp : p ∈ ((opened a).callAll calls).answers) :
    ((opened a).callAll calls).shelf.heap.string? p.2.region = some p.1 :=
  ((shown_opened a).callAll (Sound.opened a) hd).string_eq hp

end Ledger

end MiniC
