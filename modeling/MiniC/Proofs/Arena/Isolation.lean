import MiniC.Proofs.Arena.Contents
import MiniC.Proofs.Arena.Regions

namespace MiniC

theorem Region.Disjoint.symm {r s : Region} (h : r.Disjoint s) : s.Disjoint r := Or.symm h

namespace Memory

variable {m m' : Memory} {r x y : Region} {first k : Nat} {bytes : Nat → UInt8}

/-- Nothing outside of the region has changed. -/
def SameOutside (x : Region) (m m' : Memory) : Prop :=
  ∀ y : Region, y.Disjoint x → ∀ k < y.size, m'.read y k = m.read y k

theorem sameOutside_write (hlow : x.address ≤ r.address)
    (hhigh : r.address + r.size ≤ x.address + x.size) :
    SameOutside x m (m.write r first bytes) := by
  intro y hy k hk
  unfold Region.Disjoint at hy
  simp only [read, write]
  rw [if_neg (by omega)]

theorem SameOutside.trans {m'' : Memory} (h : SameOutside x m m') (k : SameOutside x m' m'') :
    SameOutside x m m'' := fun y hy i hi => (k y hy i hi).trans (h y hy i hi)

theorem read_write (hfirst : first ≤ k) (hk : k < r.size) :
    (m.write r first bytes).read r k = bytes k := by
  simp only [read, write]
  rw [if_pos (by omega), Nat.add_sub_cancel_left]

theorem read_write_of_lt (hfirst : k < first) : (m.write r first bytes).read r k = m.read r k := by
  simp only [read, write]
  rw [if_neg (by omega)]

/-- The bytes of the contents that are known stand in the region. -/
def Holds (m : Memory) (x : Region) (c : Contents) : Prop :=
  ∀ (k : Nat) (b : UInt8), c.bytes[k]? = some (some b) → m.read x k = b

/-- What was put behind a region stays there as long as only other regions change. -/
theorem Holds.of_sameOutside {c : Contents} (h : m.Holds y c) (hsize : y.size = c.bytes.length)
    (hsame : SameOutside x m m') (hy : y.Disjoint x) : m'.Holds y c := by
  intro k b hb
  have hk : k < y.size := by
    rw [hsize]
    exact (List.getElem?_eq_some_iff.mp hb).1
  rw [hsame y hy k hk]
  exact h k b hb

end Memory

namespace Heap

open Memory

variable {m : Memory} {r x old : Region} {layout : Layout} {length v : Nat}

theorem sameOutside_row (first : Nat) : SameOutside x m (row layout.width v first m x) :=
  sameOutside_write (Nat.le_refl _) (Nat.le_refl _)

theorem sameOutside_copy : SameOutside x m (copy old m x) := by
  apply sameOutside_write
  · exact Nat.le_refl _
  · exact Nat.add_le_add_left (Nat.min_le_right _ _) _

theorem read_copy {k : Nat} (hold : k < old.size) (hk : k < x.size) :
    (copy old m x).read x k = m.read old k := by
  have hmin : k < ({ x with size := min old.size x.size } : Region).size := Nat.lt_min.mpr ⟨hold, hk⟩
  exact read_write (Nat.zero_le k) hmin

theorem holds_unknown {size : Nat} : m.Holds x (.raw (List.replicate size none)) := by
  intro k b hb
  simpa using List.eq_of_mem_replicate (List.mem_of_getElem? hb)

theorem holds_row (hsize : x.size = length * layout.width) :
    (row layout.width v 0 m x).Holds x (.slice layout (List.replicate length v)) := by
  intro k b hb
  obtain ⟨hk, w, hw, rfl⟩ := Contents.slice_byte_iff.mp hb
  rw [List.length_replicate, ← hsize] at hk
  obtain rfl : w = v := List.eq_of_mem_replicate (List.mem_of_getElem? hw)
  exact read_write (Nat.zero_le k) hk

/-- A copy of other contents, cut off or with unknown bytes behind them. -/
theorem holds_copy {c : Contents} {size : Nat} (hc : m.Holds old c)
    (hold : old.size = c.bytes.length) (hsize : x.size = size) :
    (copy old m x).Holds x (.raw ((c.bytes.take size).rightpad size none)) := by
  intro k b hb
  change ((c.bytes.take size) ++ List.replicate _ none)[k]? = some (some b) at hb
  have hk : k < (c.bytes.take size).length := by
    by_contra hge
    rw [List.getElem?_append_right (by omega)] at hb
    simpa using List.eq_of_mem_replicate (List.mem_of_getElem? hb)
  rw [List.getElem?_append_left hk] at hb
  rw [List.length_take] at hk
  rw [List.getElem?_take_of_lt (by omega)] at hb
  rw [read_copy (by omega) (by omega)]
  exact hc k b hb

theorem holds_lengthen {elements : List Nat} (hc : m.Holds old (.slice layout elements))
    (hold : old.size = elements.length * layout.width) (hlength : elements.length ≤ length)
    (hsize : x.size = length * layout.width) :
    (row layout.width v old.size (copy old m x) x).Holds x
      (.slice layout (elements.rightpad length v)) := by
  intro k b hb
  obtain ⟨hk, w, hw, rfl⟩ := Contents.slice_byte_iff.mp hb
  have hpad : (elements.rightpad length v).length = length := by
    simp only [List.rightpad, List.length_append, List.length_replicate]
    omega
  rw [hpad, ← hsize] at hk
  change (elements ++ List.replicate _ v)[k / layout.width]? = some w at hw
  by_cases hlt : k < old.size
  · have hdiv : k / layout.width < elements.length :=
      Nat.div_lt_of_lt_mul (by rwa [Nat.mul_comm, ← hold])
    rw [List.getElem?_append_left hdiv] at hw
    rw [row, read_write_of_lt hlt, read_copy hlt hk]
    exact hc k _ (Contents.slice_byte_iff.mpr ⟨hold ▸ hlt, w, hw, rfl⟩)
  · have hwidth : 0 < layout.width := Nat.pos_of_ne_zero fun hzero => by simp [hsize, hzero] at hk
    have hdiv : elements.length ≤ k / layout.width := by
      rw [Nat.le_div_iff_mul_le hwidth, ← hold]
      omega
    rw [List.getElem?_append_right hdiv] at hw
    obtain rfl : w = v := List.eq_of_mem_replicate (List.mem_of_getElem? hw)
    exact read_write (by omega) hk

theorem holds_text (s : String) (hsize : x.size = s.utf8ByteSize) :
    (m.write x 0 (textByte s.toUTF8)).Holds x (.text s) := by
  intro k b hb
  have hk : k < s.toUTF8.size := by
    have hlt := (List.getElem?_eq_some_iff.mp hb).1
    rwa [Contents.length_bytes_text] at hlt
  rw [read_write (Nat.zero_le k) (hsize ▸ hk), textByte, dif_pos hk]
  simp only [Contents.bytes, List.getElem?_map, Option.map_eq_some_iff, Option.some.injEq] at hb
  obtain ⟨w, hw, rfl⟩ := hb
  obtain ⟨_, hw⟩ := List.getElem?_eq_some_iff.mp hw
  exact hw

theorem holds_set {elements : List Nat} {i : Nat} (hc : m.Holds x (.slice layout elements)) :
    (row layout.width v 0 m
        { x with address := x.address + i * layout.width, size := layout.width }).Holds x
      (.slice layout (elements.set i v)) := by
  intro k b hb
  obtain ⟨hk, w, hw, rfl⟩ := Contents.slice_byte_iff.mp hb
  rw [List.length_set] at hk
  have hwidth : 0 < layout.width := Nat.pos_of_ne_zero fun hzero => by simp [hzero] at hk
  have hbetween : k / layout.width = i ↔
      i * layout.width ≤ k ∧ k < i * layout.width + layout.width := by
    rw [Nat.div_eq_iff hwidth]
    omega
  -- byte `k` belongs to the element that is set, or to another one
  by_cases hi : k / layout.width = i
  · have hlt : i < elements.length := by
      rw [← hi]
      exact Nat.div_lt_of_lt_mul (by rwa [Nat.mul_comm])
    rw [hi, List.getElem?_set_self hlt] at hw
    obtain rfl := Option.some.inj hw
    obtain ⟨hlow, hhigh⟩ := hbetween.mp hi
    obtain ⟨q, rfl⟩ := Nat.exists_eq_add_of_le' hlow
    have hq : (row layout.width v 0 m ⟨x.serial, x.address + i * layout.width, layout.width⟩).read
        ⟨x.serial, x.address + i * layout.width, layout.width⟩ q = rowByte layout.width v q :=
      read_write (Nat.zero_le q) (by simp only; omega)
    rw [rowByte, Nat.add_mul_mod_self_right, ← rowByte, ← hq, Nat.add_comm q]
    simp only [Memory.read, ← Nat.add_assoc]
  · rw [List.getElem?_set_ne (Ne.symm hi)] at hw
    rw [hbetween] at hi
    have hsame : (row layout.width v 0 m
        { x with address := x.address + i * layout.width, size := layout.width }).read x k =
          m.read x k := by
      simp only [row, Memory.read, Memory.write]
      rw [if_neg (by omega)]
    rw [hsame]
    exact hc k _ (Contents.slice_byte_iff.mpr ⟨hk, w, hw, rfl⟩)

theorem holds_setByte {bytes : List (Option UInt8)} {i : Nat} {b : UInt8}
    (hc : m.Holds x (.raw bytes)) :
    (m.write { x with size := i + 1 } i fun _ => b).Holds x (.raw (bytes.set i (some b))) := by
  intro k b' hb
  change (bytes.set i (some b))[k]? = some (some b') at hb
  simp only [Memory.read, Memory.write]
  by_cases hk : i = k
  · subst hk
    have hi : i < bytes.length := by
      obtain ⟨hlt, -⟩ := List.getElem?_eq_some_iff.mp hb
      rwa [List.length_set] at hlt
    rw [List.getElem?_set_self hi] at hb
    rw [if_pos (by omega)]
    exact Option.some.inj (Option.some.inj hb)
  · rw [List.getElem?_set_ne hk] at hb
    rw [if_neg (by omega)]
    exact hc k b' hb

theorem holds_fill {bytes : List (Option UInt8)} {first seed : Nat} (hc : m.Holds x (.raw bytes))
    (hsize : x.size = bytes.length) :
    (m.write x first fun i => (seed + i).toUInt8).Holds x
      (.raw (bytes.mapIdx fun k old => if first ≤ k then some (seed + k).toUInt8 else old)) := by
  intro k b hb
  simp only [Contents.bytes, List.getElem?_mapIdx, Option.map_eq_some_iff] at hb
  obtain ⟨old, hold, hb⟩ := hb
  have hk : k < x.size := hsize ▸ (List.getElem?_eq_some_iff.mp hold).1
  split at hb
  · next hfirst =>
    rw [read_write hfirst hk]
    exact Option.some.inj hb
  · next hfirst =>
    rw [read_write_of_lt (Nat.lt_of_not_le hfirst)]
    exact hc k b (hold.trans (congrArg some hb))

end Heap

/-- The handle is for contents of this kind and size. -/
inductive Handle.Matches : Handle → Contents → Prop
  | raw {r : Region} {bytes : List (Option UInt8)} (size : r.size = bytes.length) :
    Matches (.raw r) (.raw bytes)
  | slice {r : Region} {layout : Layout} {length : Nat} {elements : List Nat}
    (length_eq : length = elements.length) (size : r.size = length * layout.width) :
    Matches (.slice r layout length) (.slice layout elements)
  | text {r : Region} {s : String} (size : r.size = s.utf8ByteSize) : Matches (.text r) (.text s)

namespace Handle.Matches

variable {x : Handle} {c : Contents} {r : Region} {layout : Layout} {length : Nat}

theorem size (h : x.Matches c) : x.region.size = c.bytes.length := by
  cases h with
  | raw size => exact size
  | slice length_eq size => rw [Contents.length_bytes_slice, ← length_eq]; exact size
  | text size => rw [Contents.length_bytes_text]; exact size

theorem of_raw (h : (Handle.raw r).Matches c) :
    ∃ bytes, c = .raw bytes ∧ r.size = bytes.length := by
  cases h with
  | raw size => exact ⟨_, rfl, size⟩

theorem of_slice (h : (Handle.slice r layout length).Matches c) :
    ∃ elements, c = .slice layout elements ∧ length = elements.length ∧
      r.size = length * layout.width := by
  cases h with
  | slice length_eq size => exact ⟨_, rfl, length_eq, size⟩

theorem to_raw {bytes : List (Option UInt8)} (h : x.Matches (.raw bytes)) : ∃ r, x = .raw r := by
  cases h with
  | raw size => exact ⟨_, rfl⟩

theorem to_slice {elements : List Nat} (h : x.Matches (.slice layout elements)) :
    ∃ r length, x = .slice r layout length := by
  cases h with
  | slice length_eq size => exact ⟨_, _, rfl⟩

end Handle.Matches

namespace Arena

variable {a b : Arena} {r : Request} {x : Region}

theorem disjoint_of_allocate (ha : a.allocate r = .ok (x, b))
    (hd : b.chain.Pairwise Block.Disjoint) : a.chain.Pairwise Block.Disjoint := by
  obtain ⟨-, c, hc, start, -, htake⟩ := allocate_cases ha
  obtain ⟨-, rfl⟩ := Prod.mk.inj htake
  have hchain : c.chain.Pairwise Block.Disjoint :=
    List.pairwise_cons.mpr ⟨(List.pairwise_cons.mp hd).1, (List.pairwise_cons.mp hd).2⟩
  rcases hc with rfl | ⟨-, -, rfl⟩
  · exact hchain
  · exact (List.pairwise_cons.mp hchain).2

end Arena

namespace Heap

open Memory

variable {h after : Heap} {known : List Contents} {c : Contents} {cmd : Command}

/-- Blocks that are disjoint in the end were so all along. -/
theorem disjoint_of_attemptAll {cmds : List Command}
    (hd : (h.attemptAll cmds).arena.chain.Pairwise Block.Disjoint) :
    h.arena.chain.Pairwise Block.Disjoint := by
  induction cmds generalizing h with
  | nil => exact hd
  | cons cmd cmds ih =>
    have hafter : (h.attempt cmd).arena.chain.Pairwise Block.Disjoint := ih hd
    unfold attempt at hafter
    split at hafter
    · next after hrun =>
      rcases run_cases hrun with ⟨-, harena, -⟩ | ⟨r, -, x, ha, -⟩
      · rwa [harena] at hafter
      · exact Arena.disjoint_of_allocate ha hafter
    · exact hafter

/-- The contents are those behind the handles, and no two handles share a byte. -/
structure Tracks (h : Heap) (known : List Contents) : Prop where
  sound : h.Sound
  length : h.handles.size = known.length
  apart : ∀ (i j : Nat) (x y : Handle), i ≠ j → h.handles[i]? = some x → h.handles[j]? = some y →
    x.region.Disjoint y.region
  behind : ∀ (i : Nat) (x : Handle) (c : Contents), h.handles[i]? = some x → known[i]? = some c →
    x.Matches c ∧ h.memory.Holds x.region c

theorem tracks_empty (a : Arena) : (empty a).Tracks [] := by
  refine ⟨sound_empty a, rfl, ?_, ?_⟩ <;> simp [empty]

namespace Tracks

theorem exists_contents {i : Nat} {x : Handle} (ht : h.Tracks known) (hx : h.handles[i]? = some x) :
    ∃ c, known[i]? = some c ∧ x.Matches c ∧ h.memory.Holds x.region c := by
  obtain ⟨hi, -⟩ := Array.getElem?_eq_some_iff.mp hx
  have hc := List.getElem?_eq_getElem (ht.length ▸ hi)
  exact ⟨_, hc, ht.behind i x _ hx hc⟩

theorem exists_handle {i : Nat} (ht : h.Tracks known) (hc : known[i]? = some c) :
    ∃ x, h.handles[i]? = some x ∧ x.Matches c := by
  obtain ⟨hi, -⟩ := List.getElem?_eq_some_iff.mp hc
  have hx := Array.getElem?_eq_getElem (ht.length.symm ▸ hi)
  exact ⟨_, hx, (ht.behind i _ c hx hc).1⟩

/-- A new handle is apart from the others, so what is put there leaves theirs as it is. -/
theorem grant {r : Request} {make : Region → Handle} {init : Memory → Region → Memory}
    (ht : h.Tracks known) (hg : h.grant r make init = .ok after)
    (hd : after.arena.chain.Pairwise Block.Disjoint) (hmake : ∀ x, (make x).region = x)
    (hinit : ∀ x, SameOutside x h.memory (init h.memory x))
    (hnew : ∀ x, x.size = r.size → (make x).Matches c ∧ (init h.memory x).Holds x c) :
    after.Tracks (known ++ [c]) := by
  unfold Heap.grant at hg
  cases ha : h.arena.allocate r with
  | error fault => simp [ha, Except.map] at hg
  | ok granted =>
    obtain ⟨x, arena⟩ := granted
    obtain rfl : _ = after := by simpa [ha, Except.map] using hg
    -- the new region is apart from all that were handed out
    have hfresh : ∀ (i : Nat) (y : Handle), h.handles[i]? = some y → y.region.Disjoint x :=
      fun i y hy => (ht.sound y (Array.mem_of_getElem? hy)).disjoint_allocate ha hd
    obtain ⟨hsize, -, hx⟩ := Arena.allocate_fresh ha
    obtain ⟨hmatch, hholds⟩ := hnew x hsize
    refine ⟨?_, by simp [ht.length], ?_, ?_⟩
    · intro y hy
      rcases Array.mem_push.mp hy with hy | rfl
      · exact (ht.sound y hy).allocate ha
      · rw [hmake]
        exact ⟨_, List.mem_cons_self, hx⟩
    · intro i j y z hne hy hz
      simp only [Array.getElem?_push] at hy hz
      split at hy
      · obtain rfl := Option.some.inj hy
        rw [if_neg (by omega)] at hz
        rw [hmake]
        exact (hfresh j z hz).symm
      · split at hz
        · obtain rfl := Option.some.inj hz
          rw [hmake]
          exact hfresh i y hy
        · exact ht.apart i j y z hne hy hz
    · intro i y d hy hc
      simp only [Array.getElem?_push] at hy
      split at hy
      · next hi =>
        obtain rfl := Option.some.inj hy
        rw [hi, ht.length, List.getElem?_concat_length] at hc
        obtain rfl := Option.some.inj hc
        rw [hmake]
        exact ⟨hmatch, hholds⟩
      · next hi =>
        obtain ⟨hlt, -⟩ := Array.getElem?_eq_some_iff.mp hy
        rw [List.getElem?_append_left (ht.length ▸ hlt)] at hc
        obtain ⟨hm, hb⟩ := ht.behind i y d hy hc
        exact ⟨hm, hb.of_sameOutside hm.size (hinit x) (hfresh i y hy)⟩

theorem write {i : Nat} {x : Handle} {m : Memory} (ht : h.Tracks known)
    (hx : h.handles[i]? = some x) (hsame : SameOutside x.region h.memory m)
    (hmatch : x.Matches c) (hholds : m.Holds x.region c) :
    Tracks { h with memory := m } (known.set i c) := by
  refine ⟨ht.sound, by simp [ht.length], ht.apart, ?_⟩
  intro j y d hy hd
  by_cases hij : i = j
  · subst hij
    obtain rfl := Option.some.inj (hx.symm.trans hy)
    obtain ⟨hlt, -⟩ := Array.getElem?_eq_some_iff.mp hx
    rw [List.getElem?_set_self (ht.length ▸ hlt)] at hd
    obtain rfl := Option.some.inj hd
    exact ⟨hmatch, hholds⟩
  · rw [List.getElem?_set_ne hij] at hd
    obtain ⟨hm, hb⟩ := ht.behind j y d hy hd
    exact ⟨hm, hb.of_sameOutside hm.size hsame (ht.apart j i y x (Ne.symm hij) hy hx)⟩

theorem ne_raw {i : Nat} (ht : h.Tracks known)
    (hother : ∀ r, h.handles[i]? = some (.raw r) → False) (bytes : List (Option UInt8)) :
    known[i]? ≠ some (.raw bytes) := by
  intro hc
  obtain ⟨x, hx, hm⟩ := ht.exists_handle hc
  obtain ⟨r, rfl⟩ := hm.to_raw
  exact hother r hx

theorem ne_slice {i : Nat} (ht : h.Tracks known)
    (hother : ∀ r layout length, h.handles[i]? = some (.slice r layout length) → False)
    (layout : Layout) (elements : List Nat) : known[i]? ≠ some (.slice layout elements) := by
  intro hc
  obtain ⟨x, hx, hm⟩ := ht.exists_handle hc
  obtain ⟨r, length, rfl⟩ := hm.to_slice
  exact hother r layout length hx

theorem resize {handle size align : Nat} (ht : h.Tracks known)
    (hrun : h.run (.resize handle size align) = .ok after)
    (hd : after.arena.chain.Pairwise Block.Disjoint) :
    after.Tracks (Contents.record known (.resize handle size align)) := by
  simp only [Heap.run] at hrun
  split at hrun
  · next old hold =>
    obtain ⟨c, hc, hm, hb⟩ := ht.exists_contents hold
    simp only [Contents.record, hc]
    refine ht.grant hrun hd (fun _ => rfl) (fun _ => sameOutside_copy) fun x hx => ⟨.raw ?_, ?_⟩
    · rw [hx]
      simp only [List.rightpad, List.length_append, List.length_replicate, List.length_take,
        Request.size]
      omega
    · exact holds_copy hb hm.size hx
  · next hnone =>
    obtain rfl := Except.ok.inj hrun
    have hknown : known[handle]? = none := by
      rw [List.getElem?_eq_none_iff, ← ht.length]
      exact Array.getElem?_eq_none_iff.mp hnone
    simpa only [Contents.record, hknown] using ht

theorem lengthen {handle length v : Nat} (ht : h.Tracks known)
    (hrun : h.run (.lengthen handle length v) = .ok after)
    (hd : after.arena.chain.Pairwise Block.Disjoint) :
    after.Tracks (Contents.record known (.lengthen handle length v)) := by
  simp only [Heap.run] at hrun
  split at hrun
  · next old layout oldLength hold =>
    obtain ⟨c, hc, hm, hb⟩ := ht.exists_contents hold
    obtain ⟨elements, rfl, length_eq, size⟩ := hm.of_slice
    split at hrun
    · simp at hrun
    · next hlt =>
      simp only [Contents.record, hc]
      refine ht.grant hrun hd (fun _ => rfl)
        (fun _ => sameOutside_copy.trans (sameOutside_row _)) fun x hx => ⟨.slice ?_ hx, ?_⟩
      · simp only [List.rightpad, List.length_append, List.length_replicate]
        omega
      · exact holds_lengthen hb (length_eq ▸ size) (by omega) hx
  · next hother =>
    obtain rfl := Except.ok.inj hrun
    simp only [Contents.record]
    split
    · next layout elements hc => exact absurd hc (ht.ne_slice hother layout elements)
    · exact ht

theorem setElement {handle i v : Nat} (ht : h.Tracks known)
    (hrun : h.run (.setElement handle i v) = .ok after) :
    after.Tracks (Contents.record known (.setElement handle i v)) := by
  simp only [Heap.run] at hrun
  split at hrun
  · next r layout length hold =>
    obtain ⟨c, hc, hm, hb⟩ := ht.exists_contents hold
    obtain ⟨elements, rfl, length_eq, size⟩ := hm.of_slice
    simp only [Contents.record, hc]
    split at hrun
    · next hi =>
      obtain rfl := Except.ok.inj hrun
      have hend : (i + 1) * layout.width ≤ length * layout.width := Nat.mul_le_mul_right _ hi
      rw [Nat.succ_mul] at hend
      refine ht.write hold (sameOutside_write (Nat.le_add_right _ _) ?_) (.slice ?_ size)
        (holds_set hb)
      · simp only [Handle.region]
        omega
      · rw [List.length_set, length_eq]
    · next hi =>
      obtain rfl := Except.ok.inj hrun
      have hset : elements.set i v = elements := List.set_eq_of_length_le (by omega)
      rw [hset]
      exact ht.write hold (fun _ _ _ _ => rfl) (.slice length_eq size) hb
  · next hother =>
    obtain rfl := Except.ok.inj hrun
    simp only [Contents.record]
    split
    · next layout elements hc => exact absurd hc (ht.ne_slice hother layout elements)
    · exact ht

theorem setByte {handle i : Nat} {b : UInt8} (ht : h.Tracks known)
    (hrun : h.run (.setByte handle i b) = .ok after) :
    after.Tracks (Contents.record known (.setByte handle i b)) := by
  simp only [Heap.run] at hrun
  split at hrun
  · next r hold =>
    obtain ⟨c, hc, hm, hb⟩ := ht.exists_contents hold
    obtain ⟨bytes, rfl, size⟩ := hm.of_raw
    simp only [Contents.record, hc]
    split at hrun
    · next hi =>
      obtain rfl := Except.ok.inj hrun
      refine ht.write hold (sameOutside_write (Nat.le_refl _) (Nat.add_le_add_left hi _)) (.raw ?_)
        (holds_setByte hb)
      rw [List.length_set, size]
    · next hi =>
      obtain rfl := Except.ok.inj hrun
      have hset : bytes.set i (some b) = bytes := List.set_eq_of_length_le (by omega)
      rw [hset]
      exact ht.write hold (fun _ _ _ _ => rfl) (.raw size) hb
  · next hother =>
    obtain rfl := Except.ok.inj hrun
    simp only [Contents.record]
    split
    · next bytes hc => exact absurd hc (ht.ne_raw hother bytes)
    · exact ht

theorem fill {handle first seed : Nat} (ht : h.Tracks known)
    (hrun : h.run (.fill handle first seed) = .ok after) :
    after.Tracks (Contents.record known (.fill handle first seed)) := by
  simp only [Heap.run] at hrun
  split at hrun
  · next r hold =>
    obtain ⟨c, hc, hm, hb⟩ := ht.exists_contents hold
    obtain ⟨bytes, rfl, size⟩ := hm.of_raw
    obtain rfl := Except.ok.inj hrun
    simp only [Contents.record, hc]
    refine ht.write hold (sameOutside_write (Nat.le_refl _) (Nat.le_refl _)) (.raw ?_)
      (holds_fill hb size)
    rw [List.length_mapIdx, size]
  · next hother =>
    obtain rfl := Except.ok.inj hrun
    simp only [Contents.record]
    split
    · next bytes hc => exact absurd hc (ht.ne_raw hother bytes)
    · exact ht

/-- A command that is not refused does to the handles what it does to the contents. -/
theorem run (ht : h.Tracks known) (hrun : h.run cmd = .ok after)
    (hd : after.arena.chain.Pairwise Block.Disjoint) :
    after.Tracks (Contents.record known cmd) := by
  cases cmd with
  | allocate size align =>
    simp only [Heap.run] at hrun
    refine ht.grant hrun hd (fun _ => rfl) (fun _ _ _ _ _ => rfl) fun x hx => ?_
    exact ⟨.raw (hx.trans List.length_replicate.symm), holds_unknown⟩
  | allocateSized size =>
    simp only [Heap.run] at hrun
    refine ht.grant hrun hd (fun _ => rfl) (fun _ _ _ _ _ => rfl) fun x hx => ?_
    exact ⟨.raw (hx.trans List.length_replicate.symm), holds_unknown⟩
  | value layout v =>
    simp only [Heap.run] at hrun
    refine ht.grant hrun hd (fun _ => rfl) (fun _ => sameOutside_row 0) fun x hx => ?_
    rw [Request.size, ← Nat.one_mul layout.width] at hx
    exact ⟨.slice rfl hx, holds_row hx⟩
  | slice layout length v =>
    simp only [Heap.run] at hrun
    refine ht.grant hrun hd (fun _ => rfl) (fun _ => sameOutside_row 0) fun x hx => ?_
    exact ⟨.slice List.length_replicate.symm hx, holds_row hx⟩
  | text s =>
    simp only [Heap.run] at hrun
    refine ht.grant hrun hd (fun _ => rfl)
      (fun _ => sameOutside_write (Nat.le_refl _) (Nat.le_refl _)) fun x hx => ?_
    exact ⟨.text hx, holds_text s hx⟩
  | resize handle size align => exact ht.resize hrun hd
  | lengthen handle length v => exact ht.lengthen hrun hd
  | setElement handle i v => exact ht.setElement hrun
  | setByte handle i b => exact ht.setByte hrun
  | fill handle first seed => exact ht.fill hrun

theorem attemptAll (ht : h.Tracks known) (cmds : List Command)
    (hd : (h.attemptAll cmds).arena.chain.Pairwise Block.Disjoint) :
    (h.attemptAll cmds).Tracks ((h.granted cmds).foldl Contents.record known) := by
  induction cmds generalizing h known with
  | nil => exact ht
  | cons cmd cmds ih =>
    cases hrun : h.run cmd with
    | ok after =>
      simp only [Heap.attemptAll, attempt, granted, hrun] at hd ⊢
      exact ih (ht.run hrun (disjoint_of_attemptAll hd)) hd
    | error fault =>
      simp only [Heap.attemptAll, attempt, granted, hrun] at hd ⊢
      exact ih ht hd

end Tracks

end Heap

end MiniC
