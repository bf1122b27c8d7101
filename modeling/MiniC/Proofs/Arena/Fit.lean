import Mathlib
import MiniC.Arena.Block

namespace MiniC

theorem exists_two_pow_of_isPowerOfTwo {n : Nat} (h : isPowerOfTwo n) : ∃ k, n = 2 ^ k := by
  refine ⟨n.log2, ?_⟩
  rw [← Nat.one_shiftLeft]
  exact (beq_iff_eq.mp h).symm

theorem pos_of_isPowerOfTwo {n : Nat} (h : isPowerOfTwo n) : 0 < n := by
  obtain ⟨k, rfl⟩ := exists_two_pow_of_isPowerOfTwo h
  exact Nat.two_pow_pos k

theorem addWord?_eq_some_iff {a b c : Nat} :
    addWord? a b = some c ↔ c = a + b ∧ c < addressSpace := by
  unfold addWord?
  split <;> simp <;> omega

theorem addressSpace_eq : addressSpace = 2 ^ 64 := rfl

theorem addressSpace_dvd_add_negWord (a : Nat) : addressSpace ∣ a + negWord a := by
  apply Nat.dvd_of_mod_eq_zero
  simp only [addressSpace_eq, negWord]
  omega

theorem negWord_lt (a : Nat) : negWord a < addressSpace := Nat.mod_lt _ (by decide)

namespace Block

variable {b : Block} {size align start stop : Nat}

theorem fit?_eq_some_iff : b.fit? size align = some (start, stop) ↔
    start = b.cursor + b.padding align ∧ start < addressSpace ∧
      stop = start + size ∧ stop < addressSpace ∧ stop ≤ b.base + b.capacity := by
  simp only [fit?, Option.bind_eq_bind, Option.bind_eq_some_iff, addWord?_eq_some_iff,
    Option.ite_none_right_eq_some, Option.some.injEq, Prod.mk.injEq]
  constructor
  · rintro ⟨_, ⟨hs, hs'⟩, _, ⟨ht, ht'⟩, hle, rfl, rfl⟩
    exact ⟨hs, hs', ht, ht', hle⟩
  · rintro ⟨hs, hs', ht, ht', hle⟩
    exact ⟨start, ⟨hs, hs'⟩, stop, ⟨ht, ht'⟩, hle, rfl, rfl⟩

theorem padding_two_pow (b : Block) (k : Nat) : b.padding (2 ^ k) = negWord b.cursor % 2 ^ k :=
  Nat.and_two_pow_sub_one_eq_mod _ k

theorem dvd_cursor_add_padding {k : Nat} (b : Block) (hk : k ≤ 64) :
    2 ^ k ∣ b.cursor + b.padding (2 ^ k) := by
  have hword : 2 ^ k ∣ b.cursor + negWord b.cursor :=
    Nat.dvd_trans (Nat.pow_dvd_pow 2 hk) (addressSpace_dvd_add_negWord b.cursor)
  rw [padding_two_pow]
  apply Nat.dvd_of_mod_eq_zero
  rw [Nat.add_mod_mod]
  exact Nat.mod_eq_zero_of_dvd hword

/-- A larger alignment is met at address zero only. -/
theorem cursor_eq_zero_of_fits {k : Nat} (hk : 64 ≤ k)
    (h : b.cursor + b.padding (2 ^ k) < addressSpace) : b.cursor + b.padding (2 ^ k) = 0 := by
  have hlt : negWord b.cursor < 2 ^ k :=
    Nat.lt_of_lt_of_le (negWord_lt b.cursor) (Nat.pow_le_pow_right Nat.two_pos hk)
  rw [padding_two_pow, Nat.mod_eq_of_lt hlt] at h ⊢
  exact Nat.eq_zero_of_dvd_of_lt (addressSpace_dvd_add_negWord b.cursor) h

theorem dvd_of_fit? (ha : isPowerOfTwo align) (h : b.fit? size align = some (start, stop)) :
    align ∣ start := by
  obtain ⟨hs, hlt, -⟩ := fit?_eq_some_iff.mp h
  obtain ⟨k, rfl⟩ := exists_two_pow_of_isPowerOfTwo ha
  subst hs
  rcases Nat.le_total k 64 with hk | hk
  · exact b.dvd_cursor_add_padding hk
  · rw [cursor_eq_zero_of_fits hk hlt]
    exact Nat.dvd_zero _

end Block

end MiniC
