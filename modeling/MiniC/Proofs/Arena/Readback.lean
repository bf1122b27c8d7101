import Mathlib.Data.List.Forall2
import MiniC.Proofs.Arena.Isolation

namespace MiniC

namespace Heap

variable {h : Heap} {r : Region} {x : Handle} {c : Contents} {layout : Layout}

/-- The bytes of a number, the least one first, make up what `width` bytes hold of it. -/
theorem foldr_shiftRight (width v : Nat) :
    (List.range width).foldr (fun i high => (v >>> (8 * i)).toUInt8.toNat + 256 * high) 0 =
      v % 256 ^ width := by
  induction width generalizing v with
  | zero => simp [Nat.mod_one]
  | succ width ih =>
    have hshift : ∀ i, v >>> (8 * (i + 1)) = (v / 256) >>> (8 * i) := fun i => by
      rw [Nat.mul_succ, Nat.add_comm, Nat.shiftRight_add, Nat.shiftRight_eq_div_pow v 8]
    rw [List.range_succ_eq_map, List.foldr_cons, List.foldr_map]
    simp only [Nat.succ_eq_add_one, hshift]
    rw [ih, Nat.pow_succ', Nat.mod_mul]
    rfl

theorem rowByte_add_mul (v i : Nat) {width k : Nat} (hk : k < width) :
    rowByte width v (i * width + k) = (v >>> (8 * k)).toUInt8 := by
  rw [rowByte, Nat.add_comm, Nat.add_mul_mod_self_right, Nat.mod_eq_of_lt hk]

theorem number_of_holds {elements : List Nat} {i v : Nat}
    (hb : h.memory.Holds r (.slice layout elements)) (hv : elements[i]? = some v) :
    h.number r (i * layout.width) layout.width = v % 256 ^ layout.width := by
  rw [number, ← foldr_shiftRight]
  refine List.foldr_ext _ _ _ fun k hk high => ?_
  have hlt : k < layout.width := List.mem_range.mp hk
  have hi : i < elements.length := (List.getElem?_eq_some_iff.mp hv).1
  have hrow : (i + 1) * layout.width ≤ elements.length * layout.width := Nat.mul_le_mul_right _ hi
  rw [Nat.succ_mul] at hrow
  have hdiv : (i * layout.width + k) / layout.width = i := by
    rw [Nat.add_comm, Nat.add_mul_div_right _ _ (by omega), Nat.div_eq_of_lt hlt, Nat.zero_add]
  have hbyte := hb _ _ (Contents.slice_byte_iff.mpr ⟨by omega, v, hdiv.symm ▸ hv, rfl⟩)
  rw [hbyte, rowByte_add_mul v i hlt]

theorem shows_raw {bytes : List (Option UInt8)} (hb : h.memory.Holds r (.raw bytes))
    (hsize : r.size = bytes.length) : h.Shows (.raw r) (.raw bytes) := by
  refine ⟨hsize, fun k b hk => ?_⟩
  have hlt : k < r.size := hsize ▸ (List.getElem?_eq_some_iff.mp hk).1
  simp [Heap.bytes, hlt, hb k b hk]

theorem shows_slice {elements : List Nat} (hb : h.memory.Holds r (.slice layout elements)) :
    h.Shows (.slice r layout elements.length) (.slice layout elements) := by
  refine ⟨rfl, rfl, List.ext_getElem (by simp [numbers]) fun i hi _ => ?_⟩
  have hlt : i < elements.length := by simpa [numbers] using hi
  simpa [numbers] using number_of_holds hb (List.getElem?_eq_getElem hlt)

theorem bytes_of_holds_text {s : String} (hb : h.memory.Holds r (.text s))
    (hsize : r.size = s.utf8ByteSize) : h.bytes r r.size = s.toUTF8.data.toList := by
  have hlength : s.toUTF8.data.toList.length = r.size := by rw [hsize, Array.length_toList]; rfl
  refine List.ext_getElem (by rw [hlength]; simp [Heap.bytes]) fun k hk hs => ?_
  have hbyte := hb k s.toUTF8.data.toList[k] (by simp [Contents.bytes])
  simpa [Heap.bytes] using hbyte

theorem shows_text {s : String} (hb : h.memory.Holds r (.text s))
    (hsize : r.size = s.utf8ByteSize) : h.Shows (.text r) (.text s) := by
  change String.fromUTF8? ⟨(h.bytes r r.size).toArray⟩ = some s
  rw [bytes_of_holds_text hb hsize, Array.toArray_toList]
  exact dif_pos s.isValidUTF8

theorem shows_of_matches (hm : x.Matches c) (hb : h.memory.Holds x.region c) : h.Shows x c := by
  cases hm with
  | raw size => exact shows_raw hb size
  | slice length_eq size =>
    subst length_eq
    exact shows_slice hb
  | text size => exact shows_text hb size

theorem Tracks.shows {known : List Contents} (ht : h.Tracks known) :
    List.Forall₂ h.Shows h.handles.toList known := by
  refine List.forall₂_iff_get.mpr ⟨ht.length, fun i hi hk => ?_⟩
  have hx : h.handles[i]? = some h.handles[i] := Array.getElem?_eq_getElem hi
  obtain ⟨hm, hb⟩ := ht.behind i _ _ hx (List.getElem?_eq_getElem hk)
  exact shows_of_matches hm hb

/-- Whatever is asked of an arena: every handle shows what the granted commands put behind it,
counted for that handle alone, if only the blocks are disjoint. -/
theorem contents_isolated (a : Arena) (cmds : List Command)
    (hd : ((empty a).attemptAll cmds).arena.chain.Pairwise Block.Disjoint) :
    List.Forall₂ ((empty a).attemptAll cmds).Shows ((empty a).attemptAll cmds).handles.toList
      (Contents.ofHistory ((empty a).granted cmds)) :=
  ((tracks_empty a).attemptAll cmds hd).shows

/-- A slice is lengthened into another block, cut off and written to, in this order. -/
theorem contents_isolated_grown :
    let h := (empty (.ofCapacity .packed 16)).attemptAll
      [.slice (.number 1) 3 7, .text "§", .lengthen 0 5 9, .allocate 4 3, .resize 0 3 1,
        .setElement 0 1 300, .allocate 2 1, .fill 3 2 1, .setByte 4 1 8]
    h.arena.chain.Pairwise Block.Disjoint ∧ h.arena.chain.length = 2 ∧
      List.Forall₂ h.Shows h.handles.toList
        [.slice (.number 1) [7, 300, 7], .text "§", .slice (.number 1) [7, 7, 7, 9, 9],
          .raw [some 7, some 0, some 3], .raw [none, some 8]] := by
  intro h
  have hd : h.arena.chain.Pairwise Block.Disjoint := by decide +kernel
  exact ⟨hd, by decide +kernel, contents_isolated (.ofCapacity .packed 16) _ hd⟩

end Heap

end MiniC
