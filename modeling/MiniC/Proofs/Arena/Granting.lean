import MiniC.Proofs.Arena.Accounts
import MiniC.Proofs.Arena.Usage

namespace MiniC

variable {n p k align size : Nat}

theorem roundUp_of_dvd (h : align ∣ n) : roundUp n align = n := by
  rw [roundUp, Nat.mod_eq_zero_of_dvd h, Nat.sub_zero, Nat.mod_self, Nat.add_zero]

theorem roundUp_of_not_dvd (ha : 0 < align) (h : ¬align ∣ n) :
    roundUp n align = align * (n / align + 1) := by
  have hpos : 0 < n % align := Nat.pos_of_ne_zero fun hzero => h (Nat.dvd_of_mod_eq_zero hzero)
  have hlt : n % align < align := Nat.mod_lt n ha
  have hn : align * (n / align) + n % align = n := Nat.div_add_mod n align
  rw [roundUp, Nat.mod_eq_of_lt (by omega), Nat.mul_succ]
  omega

theorem isLeast_roundUp (n : Nat) (ha : 0 < align) :
    IsLeast {m | n ≤ m ∧ align ∣ m} (roundUp n align) := by
  by_cases h : align ∣ n
  · rw [roundUp_of_dvd h]
    exact ⟨⟨Nat.le_refl n, h⟩, fun m hm => hm.1⟩
  · rw [roundUp_of_not_dvd ha h]
    refine ⟨⟨(Nat.lt_mul_div_succ n ha).le, Nat.dvd_mul_right _ _⟩, ?_⟩
    rintro m ⟨hle, q, rfl⟩
    have hlt : n < align * q := Nat.lt_of_le_of_ne hle fun heq => h ⟨q, heq⟩
    exact Nat.mul_le_mul_left _ (Nat.div_lt_of_lt_mul hlt)

theorem add_eq_roundUp (hp : p < align) (h : align ∣ n + p) : n + p = roundUp n align := by
  obtain ⟨⟨hle, hdvd⟩, hleast⟩ := isLeast_roundUp n (Nat.zero_lt_of_lt hp)
  have hge : roundUp n align ≤ n + p := hleast ⟨Nat.le_add_right n p, h⟩
  have hzero : n + p - roundUp n align = 0 :=
    Nat.eq_zero_of_dvd_of_lt (Nat.dvd_sub h hdvd) (by omega)
  omega

theorem isPowerOfTwo_two_pow (k : Nat) : isPowerOfTwo (2 ^ k) := by
  simp [isPowerOfTwo, Nat.one_shiftLeft, Nat.log2_two_pow]

namespace Block

variable {b : Block}

/-- What the words make of the next address for a request is the least multiple of the alignment,
unless both are beyond the address space. -/
theorem cursor_add_padding_cases (b : Block) (ha : isPowerOfTwo align) :
    b.cursor + b.padding align = roundUp b.cursor align ∨
      addressSpace ≤ b.cursor + b.padding align ∧ addressSpace ≤ roundUp b.cursor align := by
  have hlt := b.padding_lt ha
  obtain ⟨k, rfl⟩ := exists_two_pow_of_isPowerOfTwo ha
  rcases Nat.le_total k 64 with hk | hk
  · exact .inl (add_eq_roundUp hlt (b.dvd_cursor_add_padding hk))
  · rcases Nat.lt_or_ge (b.cursor + b.padding (2 ^ k)) addressSpace with hspace | hspace
    · have hzero := cursor_eq_zero_of_fits hk hspace
      refine .inl (add_eq_roundUp hlt ?_)
      rw [hzero]
      exact Nat.dvd_zero _
    · refine .inr ⟨hspace, ?_⟩
      obtain ⟨⟨hle, q, hq⟩, -⟩ := isLeast_roundUp b.cursor (Nat.two_pow_pos k)
      rcases Nat.eq_zero_or_pos q with rfl | hpos
      · have hcursor : b.cursor = 0 := by omega
        have hpadding : b.padding (2 ^ k) = 0 := by rw [padding_two_pow, hcursor]; exact Nat.zero_mod _
        rw [hcursor, hpadding] at hspace
        simp [addressSpace_eq] at hspace
      · calc addressSpace = 2 ^ 64 := addressSpace_eq
          _ ≤ 2 ^ k := Nat.pow_le_pow_right Nat.two_pos hk
          _ ≤ 2 ^ k * q := Nat.le_mul_of_pos_right _ hpos
          _ = roundUp b.cursor (2 ^ k) := hq.symm

theorem padding_of_dvd (hcursor : b.cursor < addressSpace) (ha : isPowerOfTwo align)
    (h : align ∣ b.cursor) : b.padding align = 0 := by
  have hstart := b.cursor_add_padding_cases ha
  rw [roundUp_of_dvd h] at hstart
  omega

/-- In a block that ends within the address space a request fits if its bytes do, behind those that
are handed out and those that are skipped. -/
theorem fit?_eq (size : Nat) (hend : b.base + b.capacity < addressSpace) (ha : isPowerOfTwo align) :
    b.fit? size align =
      if roundUp b.cursor align + size ≤ b.base + b.capacity then
        some (roundUp b.cursor align, roundUp b.cursor align + size)
      else none := by
  have hstart := b.cursor_add_padding_cases ha
  split
  · next hle =>
    rw [fit?_eq_some_iff]
    omega
  · next hgt =>
    rw [Option.eq_none_iff_forall_ne_some]
    rintro ⟨start, stop⟩ hfit
    obtain ⟨hs, -, ht, -, hle⟩ := fit?_eq_some_iff.mp hfit
    omega

end Block

/-- Whatever block the system can be asked for, it places it as asked: at a multiple of the alignment,
and with its end within the address space. -/
def Placement.Lawful (place : Placement) : Prop :=
  ∀ (blocks : List Block) (capacity align : Nat), isPowerOfTwo align →
    capacity + align ≤ sizeLimit →
      Block.WellPlaced ⟨place blocks capacity align, capacity, align, 0⟩

/-- Every block follows the one before it, as long as there is room. -/
def Placement.packedAgain : Placement := fun blocks capacity align =>
  if packed blocks capacity align + capacity < addressSpace then packed blocks capacity align
  else align

theorem Placement.lawful_packedAgain : packedAgain.Lawful := by
  intro blocks capacity align ha hlimit
  unfold packedAgain
  split
  · next hroom => exact ⟨Nat.dvd_mul_left _ _, hroom⟩
  · refine ⟨Nat.dvd_refl _, ?_⟩
    have hspace : sizeLimit < addressSpace := by decide
    simp only
    omega

namespace Arena

variable {a b : Arena} {r : Request} {x : Region} {place : Placement} {capacity : Nat}

/-- The arena gets the blocks it asks for, and has done so from the start. -/
structure Lawful (a : Arena) : Prop where
  place : a.place.Lawful
  placed : a.WellPlaced

/-- The request fits into the active block: its bytes end within the block if they start at the least
multiple of the alignment that is not handed out. -/
def HasRoom (a : Arena) (r : Request) : Prop :=
  roundUp a.active.cursor r.align + r.size ≤ a.active.base + a.active.capacity

instance (a : Arena) (r : Request) : Decidable (a.HasRoom r) := inferInstanceAs (Decidable (_ ≤ _))

/-- The system can be asked for a block for the request. -/
def Chainable (r : Request) : Prop := freshCapacity r.size + freshAlign r.align ≤ sizeLimit

instance (r : Request) : Decidable (Chainable r) := inferInstanceAs (Decidable (_ ≤ _))

theorem freshAlign_two_pow (k : Nat) : freshAlign (2 ^ k) = 2 ^ max k 4 := by
  rcases Nat.le_total k 4 with hk | hk
  · rw [Nat.max_eq_right hk]
    exact Nat.max_eq_right (Nat.pow_le_pow_right Nat.two_pos hk)
  · rw [Nat.max_eq_left hk]
    exact Nat.max_eq_left (Nat.pow_le_pow_right Nat.two_pos hk)

theorem isPowerOfTwo_freshAlign (ha : isPowerOfTwo align) : isPowerOfTwo (freshAlign align) := by
  obtain ⟨k, rfl⟩ := exists_two_pow_of_isPowerOfTwo ha
  rw [freshAlign_two_pow]
  exact isPowerOfTwo_two_pow _

theorem dvd_freshAlign (ha : isPowerOfTwo align) : align ∣ freshAlign align := by
  obtain ⟨k, rfl⟩ := exists_two_pow_of_isPowerOfTwo ha
  rw [freshAlign_two_pow]
  exact Nat.pow_dvd_pow 2 (Nat.le_max_left k 4)

theorem lawful_of_create (hplace : place.Lawful) (h : create place capacity = .ok a) : a.Lawful := by
  unfold create at h
  split at h
  · simp at h
  · split at h
    · simp at h
    · next hlimit =>
      obtain rfl := Except.ok.inj h
      refine ⟨hplace, fun b hb => ?_⟩
      obtain rfl := List.mem_singleton.mp hb
      exact hplace [] capacity blockAlign (by decide) (Nat.le_of_not_lt hlimit)

namespace Lawful

theorem end_lt (h : a.Lawful) : a.active.base + a.active.capacity < addressSpace :=
  (h.placed _ List.mem_cons_self).lt_addressSpace

theorem addBlock (h : a.Lawful) (ha : isPowerOfTwo r.align) (hc : Chainable r) :
    (a.addBlock r.size r.align).Lawful := by
  refine ⟨h.place, fun b hb => ?_⟩
  rcases List.mem_cons.mp hb with rfl | hb
  · exact h.place a.chain _ _ (isPowerOfTwo_freshAlign ha) hc
  · exact h.placed b hb

theorem take (h : a.Lawful) (start stop : Nat) : (a.take start stop).2.Lawful := by
  refine ⟨h.place, fun b hb => ?_⟩
  rcases List.mem_cons.mp hb with rfl | hb
  · have hactive := h.placed _ List.mem_cons_self
    exact ⟨hactive.align_dvd, hactive.lt_addressSpace⟩
  · exact h.placed b (List.mem_cons_of_mem _ hb)

theorem allocate (h : a.Lawful) (hgranted : a.allocate r = .ok (x, b)) : b.Lawful := by
  obtain ⟨hfault, c, hc, start, -, htake⟩ := allocate_cases hgranted
  obtain ⟨-, rfl⟩ := Prod.mk.inj htake
  rcases hc with rfl | ⟨-, hlimit, rfl⟩
  · exact h.take start _
  · exact (h.addBlock (isPowerOfTwo_of_fault?_eq_none hfault) hlimit).take start _

theorem serve?_eq (h : a.Lawful) (ha : isPowerOfTwo r.align) :
    a.serve? r.size r.align =
      if a.HasRoom r then
        some (a.take (roundUp a.active.cursor r.align) (roundUp a.active.cursor r.align + r.size))
      else none := by
  rw [serve?, Block.fit?_eq r.size h.end_lt ha, apply_ite (Option.map _)]
  rfl

theorem dvd_addBlock (h : a.Lawful) (ha : isPowerOfTwo r.align) (hc : Chainable r) :
    r.align ∣ (a.addBlock r.size r.align).active.cursor :=
  Nat.dvd_trans (dvd_freshAlign ha) ((h.addBlock ha hc).placed _ List.mem_cons_self).align_dvd

theorem padding_addBlock (h : a.Lawful) (ha : isPowerOfTwo r.align) (hc : Chainable r) :
    (a.addBlock r.size r.align).active.padding r.align = 0 := by
  have hend := (h.addBlock ha hc).end_lt
  have hcursor : (a.addBlock r.size r.align).active.cursor < addressSpace :=
    Nat.lt_of_le_of_lt (Nat.le_add_right _ _) hend
  exact Block.padding_of_dvd hcursor ha (h.dvd_addBlock ha hc)

/-- The block that is chained for a request serves it, from its first byte on. -/
theorem fit?_addBlock (h : a.Lawful) (ha : isPowerOfTwo r.align) (hc : Chainable r) :
    let fresh := (a.addBlock r.size r.align).active
    fresh.fit? r.size r.align = some (fresh.base, fresh.base + r.size) := by
  intro fresh
  have hstart : roundUp fresh.cursor r.align = fresh.base := roundUp_of_dvd (h.dvd_addBlock ha hc)
  have hroom : fresh.base + r.size ≤ fresh.base + fresh.capacity :=
    Nat.add_le_add_left (Nat.le_max_left _ _) _
  rw [Block.fit?_eq r.size (h.addBlock ha hc).end_lt ha, hstart, if_pos hroom]

theorem reserve_of_hasRoom (h : a.Lawful) (ha : isPowerOfTwo r.align) (hroom : a.HasRoom r) :
    let start := roundUp a.active.cursor r.align
    a.reserve r = (⟨a.granted, start, r.size⟩,
      { a with
        active := { a.active with used := start + r.size - a.active.base }
        counts := { a.counts with
          allocated := a.counts.allocated + (start - a.active.cursor) + r.size }
        granted := a.granted + 1 }) := by
  intro start
  have hle : a.active.cursor ≤ start := (isLeast_roundUp _ (pos_of_isPowerOfTwo ha)).1.1
  have hallocated : a.counts.allocated + (start + r.size - a.active.cursor) =
      a.counts.allocated + (start - a.active.cursor) + r.size := by omega
  rw [reserve, h.serve?_eq ha, if_pos hroom, Arena.take, Nat.add_sub_cancel_left, hallocated]

theorem reserve_of_not_hasRoom (h : a.Lawful) (ha : isPowerOfTwo r.align) (hroom : ¬a.HasRoom r) :
    let base := a.place a.chain (freshCapacity r.size) (freshAlign r.align)
    a.reserve r = (⟨a.granted, base, r.size⟩,
      { active := ⟨base, freshCapacity r.size, freshAlign r.align, r.size⟩
        retired := a.chain
        counts := ⟨a.counts.allocated + r.size, a.counts.reserved + freshCapacity r.size,
          a.counts.blocks + 1⟩
        granted := a.granted + 1
        place := a.place }) := by
  intro base
  simp only [reserve, h.serve?_eq ha, if_neg hroom, Arena.take, Arena.addBlock, Block.cursor,
    Nat.add_zero, Nat.add_sub_cancel_left]
  rfl

/-- A request without a fault of its own is refused exactly if the active block has no room for it and
the system cannot be asked for a block that has. -/
theorem allocate_eq (h : a.Lawful) (hfault : r.fault? = none) :
    a.allocate r = if a.HasRoom r ∨ Chainable r then .ok (a.reserve r) else .error .tooLarge := by
  have ha := isPowerOfTwo_of_fault?_eq_none hfault
  simp only [Arena.allocate, reserve, hfault, h.serve?_eq ha]
  by_cases hroom : a.HasRoom r
  · simp only [hroom, if_true, true_or]
  · by_cases hc : Chainable r
    · have hlimit : ¬sizeLimit < freshCapacity r.size + freshAlign r.align := Nat.not_lt.mpr hc
      have hserve : (a.addBlock r.size r.align).serve? r.size r.align = _ :=
        congrArg (Option.map _) (h.fit?_addBlock ha hc)
      simp only [hroom, hc, hlimit, hserve, if_false, or_true, if_true, Option.map_some]
    · have hlimit : sizeLimit < freshCapacity r.size + freshAlign r.align := Nat.lt_of_not_le hc
      simp only [hroom, hc, hlimit, if_false, if_true, or_self]

end Lawful

end Arena

namespace Heap

theorem lawful_attemptAll {h : Heap} (hl : h.arena.Lawful) (cs : List Command) :
    (h.attemptAll cs).arena.Lawful :=
  keeps_attemptAll (fun _ hl hgranted => hl.allocate hgranted) (fun _ _ => trivial) hl

theorem lawful_of_create {place : Placement} {capacity : Nat} {first : Arena}
    (hplace : place.Lawful) (hcreate : Arena.create place capacity = .ok first)
    (cs : List Command) : ((empty first).attemptAll cs).arena.Lawful :=
  lawful_attemptAll (h := empty first) (Arena.lawful_of_create hplace hcreate) cs

end Heap

namespace Arena

variable {place : Placement} {capacity : Nat}

/-- Bytes fit into the active block exactly if, in exact integers, they end within it behind the
least multiple of the alignment; otherwise a block is chained, which never fails them. -/
theorem bytes_served_exactly {first : Arena} (hplace : place.Lawful)
    (hcreate : create place capacity = .ok first) (cs : List Heap.Command) (size : Nat)
    (halign : isPowerOfTwo align) :
    let a := ((Heap.empty first).attemptAll cs).arena
    let stop := a.active.base + a.active.capacity
    let start := roundUp a.active.cursor align
    let fresh := a.addBlock size align
    let base := a.place a.chain (max size leastBlock) (max align blockAlign)
    a.active.cursor ≤ stop ∧ stop < addressSpace ∧
      IsLeast {m | a.active.cursor ≤ m ∧ align ∣ m} start ∧
      (a.active.fit? size align =
        if start + size ≤ stop then some (start, start + size) else none) ∧
      (start + size ≤ stop →
        a.allocate (.bytes size align) = .ok (⟨a.granted, start, size⟩,
          { a with
            active := { a.active with used := start + size - a.active.base }
            counts := { a.counts with
              allocated := a.counts.allocated + (start - a.active.cursor) + size }
            granted := a.granted + 1 })) ∧
      (stop < start + size → max size leastBlock + max align blockAlign ≤ sizeLimit →
        fresh.active.padding align = 0 ∧
        fresh.active.fit? size align = some (base, base + size) ∧
        a.allocate (.bytes size align) = .ok (⟨a.granted, base, size⟩,
          { active := ⟨base, max size leastBlock, max align blockAlign, size⟩
            retired := a.chain
            counts := ⟨a.counts.allocated + size, a.counts.reserved + max size leastBlock,
              a.counts.blocks + 1⟩
            granted := a.granted + 1
            place := a.place })) ∧
      (stop < start + size → sizeLimit < max size leastBlock + max align blockAlign →
        a.allocate (.bytes size align) = .error .tooLarge) ∧
      ∀ n, a.allocate (.bytes size align) ≠ .error (.misplaced n) := by
  intro a stop start fresh base
  have ha : a.Lawful := Heap.lawful_of_create hplace hcreate cs
  have hused : a.active.used ≤ a.active.capacity :=
    (Heap.accounted_of_create hcreate cs).used_le _ List.mem_cons_self
  let r : Request := .bytes size align
  have hr : isPowerOfTwo r.align := halign
  -- granted if the active block has room or another one can be chained
  have hallocate := ha.allocate_eq (r := r) (by simp [r, Request.fault?, halign])
  refine ⟨Nat.add_le_add_left hused _, ha.end_lt, isLeast_roundUp _ (pos_of_isPowerOfTwo halign),
    Block.fit?_eq size ha.end_lt halign, fun hroom => ?_, fun hfull hlimit => ⟨?_, ?_, ?_⟩,
    fun hfull hlimit => ?_, fun n => ?_⟩
  · rw [hallocate, if_pos (.inl hroom), ha.reserve_of_hasRoom hr hroom]
    rfl
  · exact ha.padding_addBlock (r := r) hr hlimit
  · exact ha.fit?_addBlock (r := r) hr hlimit
  · have hroom : ¬a.HasRoom r := Nat.not_le_of_lt hfull
    rw [hallocate, if_pos (.inr hlimit), ha.reserve_of_not_hasRoom hr hroom]
    rfl
  · have hrefused : ¬(a.HasRoom r ∨ Chainable r) :=
      not_or.mpr ⟨Nat.not_le_of_lt hfull, Nat.not_le_of_lt hlimit⟩
    rw [hallocate, if_neg hrefused]
  · rw [hallocate]
    split <;> simp

/-- An alignment larger than that of the blocks does not fit behind a text, though the bytes would.
-/
theorem bytes_served_exactly_overaligned :
    let first := ofCapacity .packedAgain 64
    let a := ((Heap.empty first).attemptAll [.allocate 10 1, .text "abc", .allocate 4 3]).arena
    let base := a.place a.chain (max 8 leastBlock) (max 4096 blockAlign)
    Placement.packedAgain.Lawful ∧ create .packedAgain 64 = .ok first ∧ isPowerOfTwo 4096 ∧
      a.active.base + a.active.capacity < addressSpace ∧ a.active.fit? 8 4096 = none ∧
      (a.addBlock 8 4096).active.fit? 8 4096 = some (base, base + 8) ∧
      a.allocate (.bytes 8 4096) = .ok (⟨a.granted, base, 8⟩,
        { active := ⟨base, max 8 leastBlock, max 4096 blockAlign, 8⟩
          retired := a.chain
          counts := ⟨a.counts.allocated + 8, a.counts.reserved + max 8 leastBlock,
            a.counts.blocks + 1⟩
          granted := a.granted + 1
          place := a.place }) := by
  intro first a base
  have hcreate : create .packedAgain 64 = .ok first := rfl
  obtain ⟨-, hstop, -, hfit, -, hfresh, -⟩ :=
    bytes_served_exactly Placement.lawful_packedAgain hcreate
      [.allocate 10 1, .text "abc", .allocate 4 3] 8 (show isPowerOfTwo 4096 by decide)
  have hfull : a.active.base + a.active.capacity < roundUp a.active.cursor 4096 + 8 := by
    decide +kernel
  obtain ⟨-, hserves, hgranted⟩ := hfresh hfull (by decide)
  exact ⟨Placement.lawful_packedAgain, hcreate, by decide, hstop,
    hfit.trans (if_neg (Nat.not_le_of_lt hfull)), hserves, hgranted⟩

end Arena

end MiniC
