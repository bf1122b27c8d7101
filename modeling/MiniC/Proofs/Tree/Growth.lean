import Mathlib
import MiniC.Tree.Draft

namespace MiniC

variable {wanted n c : Nat}

/-- The sizes that an array can have that holds `n` children. -/
def arraySizes (n : Nat) : Set Nat := {p | (∃ k, p = 2 ^ k) ∧ 2 ≤ p ∧ n ≤ p}

/-- The size of the array of children when there are `count` of them, if it was made for `wanted`. -/
def slotsAfter (wanted : Nat) : Nat → Nat
  | 0 => slotCount wanted
  | count + 1 =>
    let slots := slotsAfter wanted count
    if count = slots then (if slots = 0 then 2 else 2 * slots) else slots

/-- The sizes of all arrays that were made until then, the latest first. -/
def arraysAfter (wanted : Nat) : Nat → List Nat
  | 0 => if slotCount wanted = 0 then [] else [slotCount wanted]
  | count + 1 =>
    if count = slotsAfter wanted count then slotsAfter wanted (count + 1) :: arraysAfter wanted count
    else arraysAfter wanted count

theorem two_mul_two_pow_le {k j : Nat} (h : 2 ^ k < 2 ^ j) : 2 * 2 ^ k ≤ 2 ^ j := by
  have hexp : k < j := (Nat.pow_lt_pow_iff_right Nat.one_lt_two).mp h
  rw [← Nat.pow_succ']
  exact Nat.pow_le_pow_right Nat.two_pos hexp

theorem slotCount_eq_zero_iff : slotCount wanted = 0 ↔ wanted = 0 := by
  unfold slotCount
  split
  · simp [*]
  · split <;> simp [*, Nat.shiftLeft_eq]

theorem isLeast_slotCount (h : wanted ≠ 0) : IsLeast (arraySizes wanted) (slotCount wanted) := by
  unfold slotCount
  rw [if_neg h]
  split
  · next hle => exact ⟨⟨⟨1, rfl⟩, Nat.le_refl 2, hle⟩, fun p hp => hp.2.1⟩
  · next hlt =>
    have hpos : wanted - 1 ≠ 0 := by omega
    have hupper : wanted - 1 < 2 ^ ((wanted - 1).log2 + 1) := Nat.lt_log2_self
    have hlower : 2 ^ (wanted - 1).log2 ≤ wanted - 1 := Nat.log2_self_le hpos
    rw [Nat.one_shiftLeft]
    refine ⟨⟨⟨_, rfl⟩, Nat.le_self_pow (Nat.succ_ne_zero _) 2, by omega⟩, ?_⟩
    rintro p ⟨⟨k, rfl⟩, -, hle⟩
    rw [Nat.pow_succ']
    exact two_mul_two_pow_le (by omega)

/-- One more child: the array is replaced by one of twice the size exactly if it is full. -/
theorem isLeast_succ (h : IsLeast (arraySizes n) c) :
    IsLeast (arraySizes (n + 1)) (if n = c then 2 * c else c) := by
  obtain ⟨⟨⟨k, rfl⟩, htwo, hle⟩, hleast⟩ := h
  split
  · next hfull =>
    refine ⟨⟨⟨k + 1, (Nat.pow_succ').symm⟩, by omega, by omega⟩, ?_⟩
    rintro p ⟨⟨j, rfl⟩, -, hlt⟩
    exact two_mul_two_pow_le (by omega)
  · next hroom =>
    refine ⟨⟨⟨k, rfl⟩, htwo, by omega⟩, ?_⟩
    rintro p ⟨hp, hp', hlt⟩
    exact hleast ⟨hp, hp', by omega⟩

theorem slotsAfter_of_le (h : n ≤ slotCount wanted) : slotsAfter wanted n = slotCount wanted := by
  induction n with
  | zero => rfl
  | succ n ih =>
    rw [slotsAfter, ih (by omega)]
    exact if_neg (by omega)

/-- From the first full array on, the size is the least that will do. -/
theorem isLeast_slotsAfter (h : slotCount wanted < n) :
    IsLeast (arraySizes n) (slotsAfter wanted n) := by
  induction n with
  | zero => omega
  | succ n ih =>
    rcases Nat.eq_or_lt_of_le (Nat.le_of_lt_succ h) with hfirst | hlater
    · have hslots : slotsAfter wanted n = slotCount wanted := slotsAfter_of_le hfirst.ge
      rw [hfirst] at hslots
      rcases Nat.eq_zero_or_pos n with rfl | hpos
      · rw [slotsAfter, hslots]
        exact ⟨⟨⟨1, rfl⟩, Nat.le_refl 2, Nat.one_le_ofNat⟩, fun p hp => hp.2.1⟩
      · have hwanted : wanted ≠ 0 := fun hzero => by
          rw [slotCount_eq_zero_iff.mpr hzero] at hfirst
          omega
        obtain ⟨⟨hpow, htwo, -⟩, -⟩ := isLeast_slotCount hwanted
        rw [hfirst] at hpow htwo
        have hfull : IsLeast (arraySizes n) n := ⟨⟨hpow, htwo, Nat.le_refl n⟩, fun p hp => hp.2.2⟩
        rw [slotsAfter, hslots, if_neg hpos.ne']
        exact isLeast_succ hfull
    · have hslots := ih hlater
      have hpos : slotsAfter wanted n ≠ 0 := by
        have := hslots.1.2.1
        omega
      rw [slotsAfter, if_neg hpos]
      exact isLeast_succ hslots

theorem le_slotsAfter (wanted n : Nat) : n ≤ slotsAfter wanted n := by
  rcases Nat.lt_or_ge (slotCount wanted) n with hlt | hle
  · exact (isLeast_slotsAfter hlt).1.2.2
  · rw [slotsAfter_of_le hle]
    exact hle

theorem slotsAfter_eq_zero_or_mem (wanted n : Nat) :
    slotsAfter wanted n = 0 ∨ slotsAfter wanted n ∈ arraySizes n := by
  rcases Nat.lt_or_ge (slotCount wanted) n with hlt | hle
  · exact .inr (isLeast_slotsAfter hlt).1
  · rw [slotsAfter_of_le hle]
    by_cases hwanted : wanted = 0
    · exact .inl (slotCount_eq_zero_iff.mpr hwanted)
    · obtain ⟨⟨hpow, htwo, -⟩, -⟩ := isLeast_slotCount hwanted
      exact .inr ⟨hpow, htwo, hle⟩

theorem headD_arraysAfter (wanted n : Nat) :
    (arraysAfter wanted n).headD 0 = slotsAfter wanted n := by
  induction n with
  | zero =>
    rw [arraysAfter, slotsAfter]
    split
    · next hzero => exact hzero.symm
    · rfl
  | succ n ih =>
    rw [arraysAfter]
    split
    · rfl
    · next hroom =>
      rw [ih, slotsAfter, if_neg hroom]

/-- Each array that is replaced has half the size of the next one, so that all of them together have
twice the size of the last one, less that of the first one. -/
theorem sum_arraysAfter_add (h : slotsAfter wanted n ≠ 0) :
    (arraysAfter wanted n).sum + (if wanted = 0 then 2 else slotCount wanted) =
      2 * slotsAfter wanted n := by
  induction n with
  | zero =>
    have hslots : slotCount wanted ≠ 0 := h
    have hwanted : wanted ≠ 0 := mt slotCount_eq_zero_iff.mpr h
    rw [arraysAfter, slotsAfter, if_neg hslots, if_neg hwanted, List.sum_singleton]
    omega
  | succ n ih =>
    rw [arraysAfter]
    by_cases hfull : n = slotsAfter wanted n
    · rw [if_pos hfull, List.sum_cons, slotsAfter, if_pos hfull]
      by_cases hzero : slotsAfter wanted n = 0
      · obtain rfl : n = 0 := hfull.trans hzero
        have hwanted : wanted = 0 := slotCount_eq_zero_iff.mp hzero
        simp [arraysAfter, hwanted, slotsAfter, slotCount]
      · have hall := ih hzero
        rw [if_neg hzero]
        omega
    · have hsame : slotsAfter wanted (n + 1) = slotsAfter wanted n := if_neg hfull
      rw [hsame] at h
      rw [if_neg hfull, hsame]
      exact ih h

theorem sum_arraysAfter (wanted n : Nat) :
    (arraysAfter wanted n).sum =
      if wanted = 0 then 2 * slotsAfter wanted n - 2
      else 2 * slotsAfter wanted n - slotCount wanted := by
  by_cases hzero : slotsAfter wanted n = 0
  · obtain rfl : n = 0 := Nat.eq_zero_of_le_zero (hzero ▸ le_slotsAfter wanted n)
    have hwanted : wanted = 0 := slotCount_eq_zero_iff.mp hzero
    simp [arraysAfter, slotsAfter, hwanted, slotCount]
  · have hall := sum_arraysAfter_add hzero
    split at hall
    · next hwanted =>
      rw [if_pos hwanted]
      omega
    · next hwanted =>
      rw [if_neg hwanted]
      omega

end MiniC
