import MiniC.Proofs.Arena.Accounts
import MiniC.Proofs.Arena.Usage
import MiniC.Proofs.Parsing.Steps

namespace MiniC

def identTexts (tokens : List Token) : List String := tokens.filterMap Token.identifier?

/-- How many bytes the texts of the tokens have in all. -/
def textSize (tokens : List Token) : Nat := ((identTexts tokens).map String.utf8ByteSize).sum

namespace Interner

/-- How many bytes of these texts are not stored yet. -/
def missing (i : Interner) (texts : List String) : Nat :=
  ((texts.filter fun text => i.texts[text]?.isNone).map String.utf8ByteSize).sum

theorem missing_le (i : Interner) (texts : List String) :
    i.missing texts ≤ (texts.map String.utf8ByteSize).sum :=
  (List.filter_sublist.map _).sum_le_sum fun _ _ => Nat.zero_le _

end Interner

theorem sum_filter_add_le {α : Type} {l : List α} {p q : α → Bool} (f : α → Nat) {x : α}
    (hx : x ∈ l) (hp : p x) (hq : q x = false) (h : ∀ y, q y → p y) :
    ((l.filter q).map f).sum + f x ≤ ((l.filter p).map f).sum := by
  induction l with
  | nil => simp at hx
  | cons y l ih =>
    rcases List.mem_cons.mp hx with rfl | hx
    · have hsub : ((l.filter q).map f).sum ≤ ((l.filter p).map f).sum :=
        ((List.monotone_filter_right l h).map f).sum_le_sum fun _ _ => Nat.zero_le _
      rw [List.filter_cons_of_pos hp, List.filter_cons_of_neg (by simp [hq]), List.map_cons,
        List.sum_cons]
      omega
    · have ih := ih hx
      by_cases hy : q y
      · rw [List.filter_cons_of_pos hy, List.filter_cons_of_pos (h y hy)]
        simp only [List.map_cons, List.sum_cons]
        omega
      · rw [List.filter_cons_of_neg hy, List.filter_cons]
        split
        · simp only [List.map_cons, List.sum_cons]
          omega
        · exact ih

namespace Arena

variable {r : Request}

/-- What a reservation is charged: its size and less than its alignment. -/
theorem allocated_reserve_le (a : Arena) (r : Request) (hr : isPowerOfTwo r.align) :
    (a.reserve r).2.counts.allocated + 1 ≤ a.counts.allocated + r.size + r.align := by
  rcases a.reserve_cases r with ⟨start, stop, hfit, h⟩ | ⟨-, h⟩
  · have hpadding := a.active.padding_lt hr
    rw [h, take_allocated hfit]
    omega
  · have hpositive := pos_of_isPowerOfTwo hr
    rw [h]
    simp only [take, addBlock, Block.cursor]
    omega

theorem allocated_node_le (a : Arena) :
    (a.reserve Node.request).2.counts.allocated ≤ a.counts.allocated + 55 := by
  have h := a.allocated_reserve_le Node.request (show isPowerOfTwo 8 by decide)
  simp only [Node.request, Request.size, Request.align] at h ⊢
  omega

theorem allocated_slots_le (a : Arena) (capacity : Nat) :
    (a.reserve (Node.slotsRequest capacity)).2.counts.allocated ≤
      a.counts.allocated + 8 * capacity + 7 := by
  have h := a.allocated_reserve_le (Node.slotsRequest capacity) (show isPowerOfTwo 8 by decide)
  simp only [Node.slotsRequest, Request.size, Request.align] at h ⊢
  omega

theorem allocated_text_le (a : Arena) (text : String) :
    (a.reserve (.text text)).2.counts.allocated ≤ a.counts.allocated + text.utf8ByteSize := by
  have h := a.allocated_reserve_le (.text text) (show isPowerOfTwo 1 by decide)
  simp only [Request.text, Request.size, Request.align] at h ⊢
  omega

end Arena

/-- Storing a text is charged no more than that it is not missing any longer. -/
theorem Interner.charge_intern_le (i : Interner) (a : Arena) {texts : List String} {text : String}
    (h : text ∈ texts) :
    (i.intern a text).2.2.counts.allocated + (i.intern a text).2.1.missing texts ≤
      a.counts.allocated + i.missing texts := by
  unfold Interner.intern
  split
  · exact Nat.le_refl _
  · next hnone =>
    let stored := a.store text
    have hstore : stored.2.counts.allocated ≤ a.counts.allocated + text.utf8ByteSize :=
      a.allocated_text_le text
    have hmissing : (⟨i.texts.insert text stored.1⟩ : Interner).missing texts +
        text.utf8ByteSize ≤ i.missing texts := by
      refine sum_filter_add_le _ h (by simp [hnone]) (by simp) fun y hy => ?_
      simp only [Std.TreeMap.getElem?_insert] at hy
      split at hy
      · simp at hy
      · exact hy
    change stored.2.counts.allocated + (⟨i.texts.insert text stored.1⟩ : Interner).missing texts ≤ _
    omega

namespace Draft

/-- What the children of a node were charged in advance for the next array. -/
def credit (d : Draft) : Nat := 48 * d.children.size - 24 * d.capacity

theorem credit_empty (kind : NodeKind) (line wanted : Nat) :
    (Draft.empty kind line wanted).credit = 0 := Nat.zero_sub _

/-- One child more is charged its share of all arrays. -/
theorem allocated_growth_le (d : Draft) (child : Node) (a : Arena) :
    (a.reserveAll d.growth).counts.allocated + (d.push child).credit ≤
      a.counts.allocated + d.credit + 48 := by
  have hsize : (d.push child).children.size = d.children.size + 1 := Array.size_push _
  have hcapacity : (d.push child).capacity = d.nextCapacity := rfl
  rw [credit, credit, hsize, hcapacity, growth, nextCapacity]
  cases hfull : d.isFull with
  | false =>
    simp only [Bool.false_eq_true, if_false, Arena.reserveAll]
    omega
  | true =>
    have heq : d.children.size = d.capacity := beq_iff_eq.mp hfull
    by_cases hzero : d.capacity = 0
    · have hslots := a.allocated_slots_le 2
      simp only [hzero, if_true, Arena.reserveAll]
      omega
    · have hslots := a.allocated_slots_le (2 * d.capacity)
      simp only [hzero, if_true, if_false, Arena.reserveAll]
      omega

theorem allocated_requests_le (d : Draft) (a : Arena) :
    (a.reserveAll d.requests).counts.allocated ≤ a.counts.allocated + 8 * d.capacity + 62 := by
  unfold requests
  split
  · have hnode := a.allocated_node_le
    simp only [Arena.reserveAll]
    omega
  · have hslots := a.allocated_slots_le d.capacity
    have hnode := (a.reserve (Node.slotsRequest d.capacity)).2.allocated_node_le
    simp only [Arena.reserveAll]
    omega

theorem allocated_leaf_le (kind : NodeKind) (line : Nat) (text? : Option StoredText) (a : Arena) :
    (a.reserveAll (Draft.leaf kind line text?).requests).counts.allocated ≤
      a.counts.allocated + 55 := a.allocated_node_le

end Draft

namespace State

variable {pool : List Token} {s : State} {d : Draft}

/-- What the arena has handed out, and what the texts of these tokens still take of it. -/
def charge (pool : List Token) (s : State) : Nat :=
  s.arena.counts.allocated + s.interner.missing (identTexts pool)

theorem charge_skip : s.skip.charge pool = s.charge pool := rfl

theorem charge_openNode_le (pool : List Token) (kind : NodeKind) {wanted : Nat} (h : wanted ≤ 4) :
    (s.openNode kind wanted).2.charge pool ≤ s.charge pool + 100 := by
  have hslots : slotCount wanted ≤ 4 := by interval_cases wanted <;> decide
  have hnode := (Draft.empty kind s.nextLine wanted).allocated_requests_le s.arena
  simp only [charge, openNode, withArena]
  simp only [Draft.empty] at hnode ⊢
  omega

theorem charge_append_le (pool : List Token) (d : Draft) (child : Node) :
    (s.append d child).2.charge pool + (s.append d child).1.credit ≤
      s.charge pool + d.credit + 48 := by
  have h := d.allocated_growth_le child s.arena
  simp only [charge, append, withArena]
  omega

theorem charge_internToken_le {t : Token} (ht : t ∈ pool) :
    (s.internToken t).2.charge pool ≤ s.charge pool := by
  unfold internToken
  split
  · exact Nat.le_refl _
  · next text htext =>
    exact s.interner.charge_intern_le s.arena (List.mem_filterMap.mpr ⟨t, ht, htext⟩)

theorem next_mem_of_pending_subset (hs : s.pending ⊆ pool) (h : s.nextKind ≠ .eof) :
    s.reader.next ∈ pool := by
  apply hs
  rw [pending, Reader.pending_eq_cons h]
  exact List.mem_cons_self

theorem charge_takeLeaf_le (hs : s.pending ⊆ pool) (h : s.nextKind ≠ .eof) :
    s.takeLeaf.2.charge pool ≤ s.charge pool + 55 := by
  have hintern := s.skip.charge_internToken_le (next_mem_of_pending_subset hs h)
  have hleaf := Draft.allocated_leaf_le (.token s.nextKind)
    (s.skip.internToken s.reader.next).2.reader.line (s.skip.internToken s.reader.next).1
    (s.skip.internToken s.reader.next).2.arena
  rw [charge_skip] at hintern
  simp only [takeLeaf, charge, withArena] at hintern ⊢
  omega

theorem charge_addLeaf_le (d : Draft) (hs : s.pending ⊆ pool) (h : s.nextKind ≠ .eof) :
    (s.addLeaf d).2.charge pool + (s.addLeaf d).1.credit ≤ s.charge pool + d.credit + 103 := by
  have hleaf := charge_takeLeaf_le hs h
  have happend := charge_append_le (s := s.takeLeaf.2) pool d s.takeLeaf.1
  simp only [addLeaf]
  omega

end State

end MiniC
