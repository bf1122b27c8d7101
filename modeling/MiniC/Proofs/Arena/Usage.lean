import MiniC.Arena.Basic
import MiniC.Proofs.Arena.Fit

namespace MiniC

/-- The least multiple of `align` that is not below `n`. -/
def roundUp (n align : Nat) : Nat := n + (align - n % align) % align

namespace Block

/-- The block is placed as the system places blocks: aligned as was asked, and with its end within
the address space. -/
structure WellPlaced (b : Block) : Prop where
  align_dvd : b.align ∣ b.base
  lt_addressSpace : b.base + b.capacity < addressSpace

variable {b : Block} {align : Nat}

theorem cursor_add_padding (hb : blockAlign ∣ b.base) (ha : align ∣ blockAlign) :
    b.cursor + b.padding align = b.base + roundUp b.used align := by
  obtain ⟨k, hk, rfl⟩ := (Nat.dvd_prime_pow Nat.prime_two).mp (show align ∣ 2 ^ 4 from ha)
  obtain ⟨q, hq⟩ := hb
  rw [padding_two_pow, cursor, hq]
  simp only [negWord, addressSpace_eq, roundUp, blockAlign]
  interval_cases k <;> omega

theorem fit?_of_wellPlaced (size : Nat) (hb : b.WellPlaced) (hal : b.align = blockAlign)
    (ha : align ∣ blockAlign) :
    b.fit? size align =
      if roundUp b.used align + size ≤ b.capacity then
        some (b.base + roundUp b.used align, b.base + roundUp b.used align + size)
      else none := by
  have hspace := hb.lt_addressSpace
  have hstart := cursor_add_padding (hal ▸ hb.align_dvd) ha
  split
  · next hle =>
    rw [fit?_eq_some_iff, hstart]
    omega
  · next hgt =>
    rw [Option.eq_none_iff_forall_ne_some]
    rintro ⟨start, stop⟩ hfit
    obtain ⟨hs, -, ht, -, hle⟩ := fit?_eq_some_iff.mp hfit
    omega

end Block

/-- How full the active block is, and the counts. -/
structure Usage where
  capacity : Nat
  used : Nat
  counts : ArenaCounts

def Usage.reserve (u : Usage) (r : Request) : Usage :=
  let stop := roundUp u.used r.align + r.size
  if stop ≤ u.capacity then
    { u with
      used := stop
      counts := { u.counts with allocated := u.counts.allocated + (stop - u.used) } }
  else
    let capacity := Arena.freshCapacity r.size
    { capacity := capacity
      used := r.size
      counts :=
        { allocated := u.counts.allocated + r.size
          reserved := u.counts.reserved + capacity
          blocks := u.counts.blocks + 1 } }

namespace Arena

def usage (a : Arena) : Usage := ⟨a.active.capacity, a.active.used, a.counts⟩

theorem remaining_eq (a : Arena) : a.remaining = a.usage.capacity - a.usage.used := rfl

def WellPlaced (a : Arena) : Prop := ∀ b ∈ a.chain, b.WellPlaced

variable {a b : Arena} {r : Request} {size align start stop : Nat}

theorem WellPlaced.of_take (h : (a.take start stop).2.WellPlaced) : a.WellPlaced := by
  intro b hb
  rcases List.mem_cons.mp hb with rfl | hb
  · have hactive := h _ List.mem_cons_self
    exact ⟨hactive.align_dvd, hactive.lt_addressSpace⟩
  · exact h b (List.mem_cons_of_mem _ hb)

theorem WellPlaced.of_addBlock (h : (a.addBlock size align).WellPlaced) : a.WellPlaced :=
  fun b hb => h b (List.mem_cons_of_mem _ hb)

theorem reserve_cases (a : Arena) (r : Request) :
    (∃ start stop, a.active.fit? r.size r.align = some (start, stop) ∧
      a.reserve r = a.take start stop) ∨
    (a.active.fit? r.size r.align = none ∧
      let fresh := a.addBlock r.size r.align
      a.reserve r = fresh.take fresh.active.base (fresh.active.base + r.size)) := by
  unfold reserve serve?
  cases hfit : a.active.fit? r.size r.align with
  | none => exact .inr ⟨rfl, rfl⟩
  | some granted => exact .inl ⟨granted.1, granted.2, rfl, rfl⟩

theorem WellPlaced.of_reserve (h : (a.reserve r).2.WellPlaced) : a.WellPlaced := by
  rcases reserve_cases a r with ⟨start, stop, -, hr⟩ | ⟨-, hr⟩
  · rw [hr] at h
    exact h.of_take
  · rw [hr] at h
    exact h.of_take.of_addBlock

theorem freshAlign_of_dvd (h : align ∣ blockAlign) : freshAlign align = blockAlign :=
  Nat.max_eq_right (Nat.le_of_dvd (by decide) h)

theorem align_reserve (ha : a.active.align = blockAlign) (hr : r.align ∣ blockAlign) :
    (a.reserve r).2.active.align = blockAlign := by
  rcases reserve_cases a r with ⟨start, stop, -, h⟩ | ⟨-, h⟩
  · rw [h]
    exact ha
  · rw [h]
    exact freshAlign_of_dvd hr

theorem usage_reserve (hw : a.WellPlaced) (ha : a.active.align = blockAlign)
    (hr : r.align ∣ blockAlign) : (a.reserve r).2.usage = a.usage.reserve r := by
  have hfit := Block.fit?_of_wellPlaced r.size (hw _ List.mem_cons_self) ha hr
  unfold Usage.reserve
  rcases reserve_cases a r with ⟨start, stop, hsome, h⟩ | ⟨hnone, h⟩
  · obtain ⟨hle, heq⟩ := Option.ite_none_right_eq_some.mp (hfit.symm.trans hsome)
    obtain ⟨rfl, rfl⟩ := Prod.mk.inj (Option.some.inj heq)
    have hused : a.active.base + roundUp a.active.used r.align + r.size - a.active.base =
        roundUp a.active.used r.align + r.size := by omega
    have hadded : a.active.base + roundUp a.active.used r.align + r.size - a.active.cursor =
        roundUp a.active.used r.align + r.size - a.active.used := by
      unfold Block.cursor
      omega
    simp [h, take, usage, hle, hused, hadded]
  · have hgt : ¬roundUp a.active.used r.align + r.size ≤ a.active.capacity := by
      intro hle
      rw [hnone, if_pos hle] at hfit
      simp at hfit
    simp [h, take, usage, addBlock, hgt, Block.cursor]

/-- Wherever their blocks are, the arenas are equally full. -/
structure EquallyFull (a b : Arena) : Prop where
  align : a.active.align = blockAlign
  align' : b.active.align = blockAlign
  usage : a.WellPlaced → b.WellPlaced → a.usage = b.usage

namespace EquallyFull

theorem ofCapacity (place place' : Placement) (capacity : Nat) :
    (Arena.ofCapacity place capacity).EquallyFull (Arena.ofCapacity place' capacity) :=
  ⟨rfl, rfl, fun _ _ => rfl⟩

theorem reserve (h : a.EquallyFull b) (hr : r.align ∣ blockAlign) :
    (a.reserve r).2.EquallyFull (b.reserve r).2 := by
  refine ⟨align_reserve h.align hr, align_reserve h.align' hr, fun ha hb => ?_⟩
  have heq := h.usage ha.of_reserve hb.of_reserve
  rw [usage_reserve ha.of_reserve h.align hr, usage_reserve hb.of_reserve h.align' hr, heq]

theorem reserveAll {requests : List Request} (h : a.EquallyFull b)
    (hr : ∀ r ∈ requests, r.align ∣ blockAlign) :
    (a.reserveAll requests).EquallyFull (b.reserveAll requests) := by
  induction requests generalizing a b with
  | nil => exact h
  | cons r rs ih =>
    have hstep := h.reserve (hr r List.mem_cons_self)
    exact ih hstep fun r' hr' => hr r' (List.mem_cons_of_mem _ hr')

end EquallyFull

end Arena

end MiniC
