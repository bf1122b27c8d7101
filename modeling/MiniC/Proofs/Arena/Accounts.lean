import MiniC.Proofs.Arena.Regions

namespace MiniC

namespace Block

variable {b : Block} {align : Nat}

theorem padding_lt (b : Block) (ha : isPowerOfTwo align) : b.padding align < align := by
  obtain ⟨k, rfl⟩ := exists_two_pow_of_isPowerOfTwo ha
  rw [padding_two_pow]
  exact Nat.mod_lt _ (Nat.two_pow_pos k)

end Block

namespace Arena

/-- The counts are those of the chain, and no block has handed out more than it has. -/
structure Accounted (a : Arena) : Prop where
  blocks : a.counts.blocks = a.chain.length
  reserved : a.counts.reserved = (a.chain.map Block.capacity).sum
  allocated : a.counts.allocated = (a.chain.map Block.used).sum
  used_le : ∀ b ∈ a.chain, b.used ≤ b.capacity

variable {a b : Arena} {r : Request} {x : Region} {place : Placement}
  {capacity size align start stop : Nat}

theorem create_eq_ok (h : create place capacity = .ok a) : a = ofCapacity place capacity := by
  unfold create at h
  split at h
  · simp at h
  · split at h
    · simp at h
    · exact (Except.ok.inj h).symm

theorem accounted_ofCapacity (place : Placement) (capacity : Nat) :
    (ofCapacity place capacity).Accounted := by
  constructor <;> simp [ofCapacity, chain]

namespace Accounted

theorem addBlock (h : a.Accounted) (size align : Nat) : (a.addBlock size align).Accounted := by
  have hchain : (a.addBlock size align).chain = (a.addBlock size align).active :: a.chain := rfl
  refine ⟨?_, ?_, ?_, ?_⟩
  · rw [hchain, List.length_cons, ← h.blocks]
    rfl
  · rw [hchain, List.map_cons, List.sum_cons, ← h.reserved, Nat.add_comm]
    rfl
  · rw [hchain, List.map_cons, List.sum_cons, ← h.allocated]
    exact (Nat.zero_add _).symm
  · intro b hb
    rw [hchain] at hb
    rcases List.mem_cons.mp hb with rfl | hb
    · exact Nat.zero_le _
    · exact h.used_le b hb

theorem take (h : a.Accounted) (hfit : a.active.fit? size align = some (start, stop)) :
    (a.take start stop).2.Accounted := by
  obtain ⟨hstart, -, hstop, -, hle⟩ := Block.fit?_eq_some_iff.mp hfit
  unfold Block.cursor at hstart
  refine ⟨h.blocks, h.reserved, ?_, ?_⟩
  · have hsum : a.counts.allocated = a.active.used + (a.retired.map Block.used).sum := h.allocated
    change a.counts.allocated + (stop - (a.active.base + a.active.used)) =
      (stop - a.active.base) + (a.retired.map Block.used).sum
    omega
  · intro b hb
    rcases List.mem_cons.mp hb with rfl | hb
    · change stop - a.active.base ≤ a.active.capacity
      omega
    · exact h.used_le b (List.mem_cons_of_mem _ hb)

theorem allocate (h : a.Accounted) (ha : a.allocate r = .ok (x, b)) : b.Accounted := by
  obtain ⟨-, c, hc, start, hfit, htake⟩ := allocate_cases ha
  obtain ⟨-, rfl⟩ := Prod.mk.inj htake
  rcases hc with rfl | ⟨-, -, rfl⟩
  · exact h.take hfit
  · exact (h.addBlock _ _).take hfit

/-- The rest of a retired block is in neither summand. -/
theorem allocated_add_remaining_le (h : a.Accounted) :
    a.counts.allocated + a.remaining ≤ a.counts.reserved := by
  have hretired : (a.retired.map Block.used).sum ≤ (a.retired.map Block.capacity).sum :=
    List.sum_le_sum fun b hb => h.used_le b (List.mem_cons_of_mem _ hb)
  have hactive : a.active.used ≤ a.active.capacity := h.used_le _ List.mem_cons_self
  have hallocated : a.counts.allocated = a.active.used + (a.retired.map Block.used).sum :=
    h.allocated
  have hreserved :
      a.counts.reserved = a.active.capacity + (a.retired.map Block.capacity).sum := h.reserved
  change a.counts.allocated + (a.active.capacity - a.active.used) ≤ a.counts.reserved
  omega

end Accounted

theorem take_allocated (hfit : a.active.fit? size align = some (start, stop)) :
    (a.take start stop).2.counts.allocated =
      a.counts.allocated + size + a.active.padding align := by
  obtain ⟨hstart, -, hstop, -, -⟩ := Block.fit?_eq_some_iff.mp hfit
  change a.counts.allocated + (stop - a.active.cursor) = _
  omega

/-- A granted request is charged its size and what was skipped to align it. -/
theorem allocate_charge (ha : a.allocate r = .ok (x, b)) :
    (b.retired = a.retired ∨ b.retired = a.chain) ∧
      ∃ padding < r.align, b.counts.allocated = a.counts.allocated + r.size + padding := by
  obtain ⟨hfault, c, hc, start, hfit, htake⟩ := allocate_cases ha
  obtain ⟨-, rfl⟩ := Prod.mk.inj htake
  have hpadding := c.active.padding_lt (isPowerOfTwo_of_fault?_eq_none hfault)
  have hcharge := take_allocated hfit
  rcases hc with rfl | ⟨-, -, rfl⟩
  · exact ⟨.inl rfl, _, hpadding, hcharge⟩
  · exact ⟨.inr rfl, _, hpadding, hcharge⟩

end Arena

namespace Heap

variable {h : Heap}

theorem accounted_attemptAll (ha : h.arena.Accounted) (cs : List Command) :
    (h.attemptAll cs).arena.Accounted :=
  keeps_attemptAll (fun _ ha hgranted => ha.allocate hgranted) (fun _ _ => trivial) ha

theorem accounted_of_create {place : Placement} {capacity : Nat} {first : Arena}
    (hcreate : Arena.create place capacity = .ok first) (cs : List Command) :
    ((empty first).attemptAll cs).arena.Accounted := by
  apply accounted_attemptAll
  rw [Arena.create_eq_ok hcreate]
  exact Arena.accounted_ofCapacity place capacity

end Heap

namespace Arena

/-- Whatever was asked of an arena, its counts are those of its chain of blocks, and the next
request is charged its size and less than its alignment. -/
theorem counts_exact {place : Placement} {capacity : Nat} {first : Arena}
    (hcreate : create place capacity = .ok first) (cs : List Heap.Command) :
    let a := ((Heap.empty first).attemptAll cs).arena
    a.counts.blocks = a.chain.length ∧ a.release = a.counts.blocks ∧
      a.counts.reserved = (a.chain.map Block.capacity).sum ∧
      a.counts.allocated = (a.chain.map Block.used).sum ∧
      a.active.used ≤ a.active.capacity ∧
      a.counts.allocated + a.remaining ≤ a.counts.reserved ∧
      ∀ (r : Request) (x : Region) (b : Arena), a.allocate r = .ok (x, b) →
        (b.retired = a.retired ∨ b.retired = a.chain) ∧
          ∃ padding < r.align, b.counts.allocated = a.counts.allocated + r.size + padding := by
  intro a
  have ha : a.Accounted := Heap.accounted_of_create hcreate cs
  refine ⟨ha.blocks, ha.blocks.symm, ha.reserved, ha.allocated, ha.used_le _ List.mem_cons_self,
    ha.allocated_add_remaining_le, ?_⟩
  intro r x b hgranted
  exact allocate_charge hgranted

/-- A request with a wrong alignment is passed over, and a slice outgrows the first block. -/
theorem counts_exact_chained :
    let first := ofCapacity .packed 64
    let a := ((Heap.empty first).attemptAll
      [.allocate 10 1, .allocate 4 3, .slice (.number 3) 9 7]).arena
    create .packed 64 = .ok first ∧ a.counts.blocks = a.chain.length ∧
      a.release = a.counts.blocks ∧ a.counts.reserved = (a.chain.map Block.capacity).sum ∧
      a.counts.allocated = (a.chain.map Block.used).sum ∧
      a.active.used ≤ a.active.capacity ∧ a.counts.allocated + a.remaining ≤ a.counts.reserved ∧
      ∃ x b, a.allocate (.bytes 5 16) = .ok (x, b) ∧
        (b.retired = a.retired ∨ b.retired = a.chain) ∧
          ∃ padding < 16, b.counts.allocated = a.counts.allocated + 5 + padding := by
  intro first a
  have hcreate : create .packed 64 = .ok first := rfl
  obtain ⟨hblocks, hrelease, hreserved, hallocated, hused, hremaining, hcharge⟩ :=
    counts_exact hcreate [.allocate 10 1, .allocate 4 3, .slice (.number 3) 9 7]
  obtain ⟨⟨x, b⟩, hb⟩ : ∃ granted, a.allocate (.bytes 5 16) = .ok granted := by
    have hok : (a.allocate (.bytes 5 16)).isOk := by decide +kernel
    cases ha : a.allocate (.bytes 5 16) with
    | ok granted => exact ⟨granted, rfl⟩
    | error fault => simp [ha, Except.isOk, Except.toBool] at hok
  exact ⟨hcreate, hblocks, hrelease, hreserved, hallocated, hused, hremaining, x, b, hb,
    hcharge _ x b hb⟩

end Arena

end MiniC
