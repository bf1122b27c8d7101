import MiniC.Proofs.Arena.Granting

namespace MiniC

theorem roundUp_lt (n : Nat) {align : Nat} (ha : 0 < align) : roundUp n align < n + align :=
  Nat.add_lt_add_left (Nat.mod_lt _ ha) n

namespace Arena

variable {a b : Arena} {r : Request} {x : Region} {place : Placement} {capacity : Nat}

/-- A block without room for a request is hardly larger than what it has handed out and the request. -/
theorem capacity_lt_of_not_hasRoom (ha : isPowerOfTwo r.align) (hr : r.align ≤ blockAlign)
    (hroom : ¬a.HasRoom r) : a.active.capacity < a.active.used + r.size + 15 := by
  have hlt := roundUp_lt a.active.cursor (pos_of_isPowerOfTwo ha)
  unfold HasRoom at hroom
  unfold blockAlign at hr
  unfold Block.cursor at hlt hroom
  omega

/-- Every byte that is handed out pays for two bytes of retired blocks: one when its own block is
retired, and one for the block that was retired to make room for it. -/
structure Frugal (a : Arena) : Prop where
  lawful : a.Lawful
  paid : (a.retired.map Block.capacity).sum + a.active.used ≤
    2 * a.counts.allocated + 15 * a.retired.length

theorem frugal_of_create (hplace : place.Lawful) (hcreate : create place capacity = .ok a) :
    a.Frugal := by
  refine ⟨lawful_of_create hplace hcreate, ?_⟩
  rw [create_eq_ok hcreate]
  exact Nat.zero_le _

theorem Frugal.allocate (h : a.Frugal) (hr : r.align ≤ blockAlign)
    (hgranted : a.allocate r = .ok (x, b)) : b.Frugal := by
  refine ⟨h.lawful.allocate hgranted, ?_⟩
  obtain ⟨hfault, -⟩ := allocate_cases hgranted
  have ha := isPowerOfTwo_of_fault?_eq_none hfault
  have hpaid := h.paid
  have hreserve : a.reserve r = (x, b) := by
    rw [h.lawful.allocate_eq hfault] at hgranted
    split at hgranted
    · exact Except.ok.inj hgranted
    · simp at hgranted
  by_cases hroom : a.HasRoom r
  · have hle : a.active.cursor ≤ roundUp a.active.cursor r.align :=
      (isLeast_roundUp _ (pos_of_isPowerOfTwo ha)).1.1
    rw [h.lawful.reserve_of_hasRoom ha hroom] at hreserve
    obtain rfl := (Prod.mk.inj hreserve).2
    simp only [Block.cursor] at hle ⊢
    omega
  · -- the block that is retired leaves less unused than the request and its padding take
    have hcapacity := capacity_lt_of_not_hasRoom ha hr hroom
    rw [h.lawful.reserve_of_not_hasRoom ha hroom] at hreserve
    obtain rfl := (Prod.mk.inj hreserve).2
    simp only [chain, List.map_cons, List.sum_cons, List.length_cons]
    omega

/-- However small and large requests alternate, the blocks that are left behind are at most twice as
large as all that was handed out, but for a few bytes each. -/
theorem retired_capacity_le {first : Arena} (hplace : place.Lawful)
    (hcreate : create place capacity = .ok first) (cs : List Heap.Command)
    (hcs : ∀ r ∈ (Heap.empty first).asked cs, r.align ≤ blockAlign) :
    let a := ((Heap.empty first).attemptAll cs).arena
    a.counts.reserved - a.active.capacity ≤ 2 * a.counts.allocated + 15 * (a.counts.blocks - 1) := by
  intro a
  have hfrugal : a.Frugal :=
    Heap.keeps_attemptAll (fun hr h hgranted => h.allocate hr hgranted) hcs
      (frugal_of_create hplace hcreate)
  have haccounted : a.Accounted := Heap.accounted_of_create hcreate cs
  have hreserved : a.counts.reserved = a.active.capacity + (a.retired.map Block.capacity).sum :=
    haccounted.reserved
  have hblocks : a.counts.blocks = a.retired.length + 1 := haccounted.blocks
  have hpaid := hfrugal.paid
  omega

/-- Three blocks are left behind almost empty. -/
theorem retired_capacity_le_alternating :
    let first := ofCapacity .packedAgain 64
    let cs : List Heap.Command := [.allocate 1 1, .allocate (leastBlock + 1) 16,
      .slice (.number 3) 1 7, .allocate leastBlock 8, .text "abc", .allocate leastBlock 4]
    let a := ((Heap.empty first).attemptAll cs).arena
    Placement.packedAgain.Lawful ∧ create .packedAgain 64 = .ok first ∧
      (∀ r ∈ (Heap.empty first).asked cs, r.align ≤ blockAlign) ∧
      a.counts.reserved - a.active.capacity ≤ 2 * a.counts.allocated + 15 * (a.counts.blocks - 1) := by
  intro first cs a
  have hcreate : create .packedAgain 64 = .ok first := rfl
  have hcs : ∀ r ∈ (Heap.empty first).asked cs, r.align ≤ blockAlign := by decide +kernel
  exact ⟨Placement.lawful_packedAgain, hcreate, hcs,
    retired_capacity_le Placement.lawful_packedAgain hcreate cs hcs⟩

end Arena

end MiniC
