import MiniC.Arena.Heap
import MiniC.Proofs.Arena.Fit

namespace MiniC

/-- One ends where the other starts or before. -/
def Region.Disjoint (r s : Region) : Prop :=
  r.address + r.size ≤ s.address ∨ s.address + s.size ≤ r.address

instance (r s : Region) : Decidable (r.Disjoint s) := inferInstanceAs (Decidable (_ ∨ _))

namespace Block

def Disjoint (b c : Block) : Prop :=
  b.base + b.capacity ≤ c.base ∨ c.base + c.capacity ≤ b.base

instance (b c : Block) : Decidable (b.Disjoint c) := inferInstanceAs (Decidable (_ ∨ _))

structure Contains (b : Block) (r : Region) : Prop where
  base_le : b.base ≤ r.address
  le_end : r.address + r.size ≤ b.base + b.capacity

/-- The region lies in the part of the block that is handed out. -/
structure Holds (b : Block) (r : Region) : Prop where
  base_le : b.base ≤ r.address
  le_cursor : r.address + r.size ≤ b.cursor
  used_le : b.used ≤ b.capacity

variable {b c : Block} {r s : Region}

theorem Holds.contains (h : b.Holds r) : b.Contains r := by
  obtain ⟨hbase, hcursor, hused⟩ := h
  unfold cursor at hcursor
  exact ⟨hbase, by omega⟩

theorem Disjoint.symm (h : b.Disjoint c) : c.Disjoint b := Or.symm h

theorem Disjoint.regions (h : b.Disjoint c) (hr : b.Contains r) (hs : c.Contains s) :
    r.Disjoint s := by
  have := hr.base_le
  have := hr.le_end
  have := hs.base_le
  have := hs.le_end
  unfold Block.Disjoint at h
  unfold Region.Disjoint
  omega

end Block

namespace Arena

def Holds (a : Arena) (r : Region) : Prop := ∃ b ∈ a.chain, b.Holds r

variable {a a' : Arena} {r : Request} {x y : Region} {size align start stop : Nat}

theorem Holds.addBlock (h : a.Holds y) : (a.addBlock size align).Holds y := by
  obtain ⟨b, hb, hy⟩ := h
  exact ⟨b, List.mem_cons_of_mem _ hb, hy⟩

theorem holds_take (h : a.active.fit? size align = some (start, stop)) :
    (a.take start stop).2.active.Holds (a.take start stop).1 := by
  obtain ⟨hs, -, ht, -, hle⟩ := Block.fit?_eq_some_iff.mp h
  unfold Block.cursor at hs
  constructor <;> simp only [take, Block.cursor] <;> omega

/-- Regions stay in what is handed out, since the active block only gets fuller. -/
theorem Holds.take (h : a.active.fit? size align = some (start, stop)) (hy : a.Holds y) :
    (a.take start stop).2.Holds y := by
  obtain ⟨hs, -, ht, -, hle⟩ := Block.fit?_eq_some_iff.mp h
  unfold Block.cursor at hs
  obtain ⟨b, hb, hy⟩ := hy
  rcases List.mem_cons.mp hb with rfl | hb
  · refine ⟨(a.take start stop).2.active, List.mem_cons_self, hy.base_le, ?_, ?_⟩
    · refine Nat.le_trans hy.le_cursor ?_
      simp only [Arena.take, Block.cursor]
      omega
    · simp only [Arena.take]
      omega
  · exact ⟨b, List.mem_cons_of_mem _ hb, hy⟩

/-- What a request that fits gets is disjoint from all that was handed out. In the active block, that
is because it starts behind it, in the retired ones because the blocks are disjoint. -/
theorem Holds.disjoint_take (h : a.active.fit? size align = some (start, stop)) (hy : a.Holds y)
    (hd : (a.take start stop).2.chain.Pairwise Block.Disjoint) :
    y.Disjoint (a.take start stop).1 := by
  obtain ⟨b, hb, hy⟩ := hy
  rcases List.mem_cons.mp hb with rfl | hb
  · obtain ⟨hs, -⟩ := Block.fit?_eq_some_iff.mp h
    have hcursor := hy.le_cursor
    exact .inl (by simp only [Arena.take]; omega)
  · have hapart := (List.pairwise_cons.mp hd).1 b hb
    exact hapart.symm.regions hy.contains (holds_take h).contains

theorem serve?_eq_some (h : a.serve? size align = some (x, a')) :
    ∃ start, a.active.fit? size align = some (start, start + size) ∧
      (x, a') = a.take start (start + size) := by
  obtain ⟨⟨start, stop⟩, hfit, htake⟩ := Option.map_eq_some_iff.mp h
  obtain ⟨-, -, rfl, -⟩ := Block.fit?_eq_some_iff.mp hfit
  exact ⟨start, hfit, htake.symm⟩

/-- All that a granted request can do: it is sound, it fits into the active block or into the one that
is chained where it does not fit, and takes its bytes there. -/
theorem allocate_cases (h : a.allocate r = .ok (x, a')) :
    r.fault? = none ∧ ∃ b, (b = a ∨ a.serve? r.size r.align = none ∧
        freshCapacity r.size + freshAlign r.align ≤ sizeLimit ∧ b = a.addBlock r.size r.align) ∧
      ∃ start, b.active.fit? r.size r.align = some (start, start + r.size) ∧
        (x, a') = b.take start (start + r.size) := by
  unfold allocate at h
  split at h
  · simp at h
  · next hfault =>
    refine ⟨hfault, ?_⟩
    split at h
    · next granted hserve =>
      obtain rfl : granted = (x, a') := by simpa using h
      exact ⟨a, .inl rfl, serve?_eq_some hserve⟩
    · next hserve =>
      split at h
      · simp at h
      · next hlimit =>
        split at h
        · next granted hfresh =>
          obtain rfl : granted = (x, a') := by simpa using h
          exact ⟨_, .inr ⟨hserve, by omega, rfl⟩, serve?_eq_some hfresh⟩
        · simp at h

theorem isPowerOfTwo_of_fault?_eq_none (h : r.fault? = none) : isPowerOfTwo r.align := by
  cases r with
  | bytes size align => simpa [Request.fault?, Request.align] using h
  | array length width align =>
    simp only [Request.fault?] at h
    split at h
    · simp at h
    · simpa [Request.align] using h

theorem allocate_fresh (h : a.allocate r = .ok (x, a')) :
    x.size = r.size ∧ r.align ∣ x.address ∧ a'.active.Holds x := by
  obtain ⟨hfault, b, -, start, hfit, htake⟩ := allocate_cases h
  obtain ⟨rfl, rfl⟩ := Prod.mk.inj htake
  have hdvd := Block.dvd_of_fit? (isPowerOfTwo_of_fault?_eq_none hfault) hfit
  refine ⟨?_, hdvd, holds_take hfit⟩
  exact Nat.add_sub_cancel_left start r.size

theorem address_lt_of_allocate (h : a.allocate r = .ok (x, a')) : x.address < addressSpace := by
  obtain ⟨-, b, -, start, hfit, htake⟩ := allocate_cases h
  obtain ⟨rfl, -⟩ := Prod.mk.inj htake
  obtain ⟨-, hstart, -⟩ := Block.fit?_eq_some_iff.mp hfit
  exact hstart

theorem Holds.allocate (h : a.allocate r = .ok (x, a')) (hy : a.Holds y) : a'.Holds y := by
  obtain ⟨-, b, hb, start, hfit, htake⟩ := allocate_cases h
  obtain ⟨rfl, rfl⟩ := Prod.mk.inj htake
  rcases hb with rfl | ⟨-, -, rfl⟩
  · exact hy.take hfit
  · exact hy.addBlock.take hfit

theorem Holds.disjoint_allocate (h : a.allocate r = .ok (x, a')) (hy : a.Holds y)
    (hd : a'.chain.Pairwise Block.Disjoint) : y.Disjoint x := by
  obtain ⟨-, b, hb, start, hfit, htake⟩ := allocate_cases h
  obtain ⟨rfl, rfl⟩ := Prod.mk.inj htake
  rcases hb with rfl | ⟨-, -, rfl⟩
  · exact hy.disjoint_take hfit hd
  · exact hy.addBlock.disjoint_take hfit hd

end Arena

namespace Heap

/-- What a command asks of the arena. -/
def request? (h : Heap) : Command → Option Request
  | .allocate size align => some (.bytes size align)
  | .allocateSized size => some (.sized size)
  | .resize handle size align => h.handles[handle]?.map fun _ => .bytes size align
  | .value layout _ => some (.bytes layout.width layout.align)
  | .slice layout length _ => some (.array length layout.width layout.align)
  | .lengthen handle length _ =>
    match h.handles[handle]? with
    | some (.slice _ layout _) => some (.array length layout.width layout.align)
    | _ => none
  | .text s => some (.text s)
  | .setElement .. => none
  | .setByte .. => none
  | .fill .. => none

/-- The others only write to memory that is handed out. -/
def Command.Makes : Command → Prop
  | .setElement .. | .setByte .. | .fill .. => False
  | _ => True

/-- Every region that has a handle lies in what the arena has handed out. -/
def Sound (h : Heap) : Prop := ∀ x ∈ h.handles, h.arena.Holds x.region

variable {h after : Heap} {r : Request} {c : Command}

theorem grant_eq_ok {make : Region → Handle} {init : Memory → Region → Memory}
    (hg : h.grant r make init = .ok after) :
    ∃ x : Region, h.arena.allocate r = .ok (x, after.arena) ∧
      after.handles = h.handles.push (make x) := by
  unfold grant at hg
  cases ha : h.arena.allocate r with
  | error fault => simp [ha, Except.map] at hg
  | ok granted =>
    obtain ⟨x, arena⟩ := granted
    obtain rfl : _ = after := by simpa [ha, Except.map] using hg
    exact ⟨x, rfl, rfl⟩

theorem grant_cases {make : Region → Handle} {init : Memory → Region → Memory}
    (hg : h.grant r make init = .ok after) (hmake : ∀ x, (make x).region = x) :
    ∃ x : Handle, h.arena.allocate r = .ok (x.region, after.arena) ∧
      after.handles = h.handles.push x := by
  obtain ⟨x, ha, hh⟩ := grant_eq_ok hg
  exact ⟨make x, by rw [hmake, ha], hh⟩

theorem exists_run_of_not_makes (h : Heap) (hc : ¬c.Makes) :
    ∃ m, h.run c = .ok { h with memory := m } := by
  cases c with
  | setElement | setByte | fill =>
    simp only [run]
    repeat' split
    all_goals exact ⟨_, rfl⟩
  | _ => exact absurd trivial hc

theorem run_cases (hrun : h.run c = .ok after) :
    (h.request? c = none ∧ after.arena = h.arena ∧ after.handles = h.handles) ∨
      ∃ r, h.request? c = some r ∧ ∃ x : Handle,
        h.arena.allocate r = .ok (x.region, after.arena) ∧ after.handles = h.handles.push x := by
  have hwrites := h.exists_run_of_not_makes (c := c)
  cases c with
  | allocate | allocateSized | value | slice | text =>
    simp only [run] at hrun
    exact .inr ⟨_, rfl, grant_cases hrun fun _ => rfl⟩
  | resize handle size align =>
    simp only [run] at hrun
    split at hrun
    · next old hold => exact .inr ⟨_, by simp [request?, hold], grant_cases hrun fun _ => rfl⟩
    · next hnone =>
      obtain rfl := Except.ok.inj hrun
      exact .inl ⟨by simp [request?, hnone], rfl, rfl⟩
  | lengthen handle length v =>
    simp only [run] at hrun
    split at hrun
    · next old layout oldLength hold =>
      split at hrun
      · simp at hrun
      · exact .inr ⟨_, by simp [request?, hold], grant_cases hrun fun _ => rfl⟩
    · next hnone =>
      obtain rfl := Except.ok.inj hrun
      exact .inl ⟨by simp only [request?], rfl, rfl⟩
  | setElement | setByte | fill =>
    obtain ⟨m, hm⟩ := hwrites id
    obtain rfl := Except.ok.inj (hm.symm.trans hrun)
    exact .inl ⟨rfl, rfl, rfl⟩

theorem run_eq_ok_attempt (hok : (h.run c).isOk) : h.run c = .ok (h.attempt c) := by
  unfold attempt
  cases hrun : h.run c with
  | ok after => rfl
  | error fault => simp [hrun, Except.isOk, Except.toBool] at hok

/-- What the commands ask of the arena one after another, granted or refused. -/
def asked (h : Heap) : List Command → List Request
  | [] => []
  | c :: cs => (h.request? c).toList ++ (h.attempt c).asked cs

/-- What every request keeps that is allowed and granted, every run of commands keeps. -/
theorem keeps_attemptAll {P : Arena → Prop} {allowed : Request → Prop}
    (hstep : ∀ {a b : Arena} {r : Request} {x : Region},
      allowed r → P a → a.allocate r = .ok (x, b) → P b)
    {cs : List Command} (hcs : ∀ r ∈ h.asked cs, allowed r) (hp : P h.arena) :
    P (h.attemptAll cs).arena := by
  induction cs generalizing h with
  | nil => exact hp
  | cons c cs ih =>
    have hrest : ∀ r ∈ (h.attempt c).asked cs, allowed r :=
      fun r hr => hcs r (List.mem_append_right _ hr)
    apply ih hrest
    unfold attempt
    split
    · next after hrun =>
      rcases run_cases hrun with ⟨-, harena, -⟩ | ⟨r, hr, x, halloc, -⟩
      · rwa [harena]
      · have hallowed : allowed r := hcs r (List.mem_append_left _ (by simp [hr]))
        exact hstep hallowed hp halloc
    · exact hp

theorem sound_empty (a : Arena) : (empty a).Sound := by
  simp [Sound, empty]

/-- A step keeps every region where it was and puts a new one behind them. -/
theorem Sound.run (hs : h.Sound) (hrun : h.run c = .ok after) : after.Sound := by
  rcases run_cases hrun with ⟨-, ha, hh⟩ | ⟨r, -, x, ha, hh⟩
  · unfold Sound
    rw [ha, hh]
    exact hs
  · intro y hy
    rw [hh] at hy
    rcases Array.mem_push.mp hy with hy | rfl
    · exact (hs y hy).allocate ha
    · obtain ⟨-, -, hx⟩ := Arena.allocate_fresh ha
      exact ⟨_, List.mem_cons_self, hx⟩

theorem Sound.attempt (hs : h.Sound) (c : Command) : (h.attempt c).Sound := by
  unfold Heap.attempt
  split
  · next hrun => exact hs.run hrun
  · exact hs

theorem Sound.attemptAll (hs : h.Sound) (cs : List Command) : (h.attemptAll cs).Sound := by
  induction cs generalizing h with
  | nil => exact hs
  | cons c cs ih => exact ih (hs.attempt c)

/-- After any commands, what is handed out next is as large and aligned as asked, in one of the
blocks, and disjoint from all that was handed out before, if only the blocks are disjoint. -/
theorem granted_region_fresh (a : Arena) (cs : List Command)
    (hask : ((empty a).attemptAll cs).request? c = some r)
    (hrun : ((empty a).attemptAll cs).run c = .ok after)
    (hd : after.arena.chain.Pairwise Block.Disjoint) :
    ∃ x : Handle, after.handles = ((empty a).attemptAll cs).handles.push x ∧
      x.region.size = r.size ∧ r.align ∣ x.region.address ∧
      (∃ b ∈ after.arena.chain, b.Contains x.region) ∧
      ∀ y ∈ ((empty a).attemptAll cs).handles, y.region.Disjoint x.region := by
  have hs : ((empty a).attemptAll cs).Sound := (sound_empty a).attemptAll cs
  rcases run_cases hrun with ⟨hnone, -⟩ | ⟨r', hr, x, ha, hh⟩
  · simp [hnone] at hask
  · obtain rfl : r' = r := by simpa [hr] using hask
    obtain ⟨hsize, halign, hx⟩ := Arena.allocate_fresh ha
    refine ⟨x, hh, hsize, halign, ⟨_, List.mem_cons_self, hx.contains⟩, fun y hy => ?_⟩
    exact (hs y hy).disjoint_allocate ha hd

/-- A slice outgrows the first block. -/
theorem granted_region_fresh_chained :
    let h := (empty (.ofCapacity .packed 64)).attemptAll [.allocate 10 1, .slice (.number 3) 5 7]
    let after := h.attempt (.lengthen 1 9 4)
    h.request? (.lengthen 1 9 4) = some (.array 9 8 8) ∧
      after.arena.chain.Pairwise Block.Disjoint ∧
      ∃ x, after.handles = h.handles.push x ∧ x.region.size = 72 ∧ 8 ∣ x.region.address ∧
        (∃ b ∈ after.arena.chain, b.Contains x.region) ∧
        ∀ y ∈ h.handles, y.region.Disjoint x.region := by
  intro h after
  have hask : h.request? (.lengthen 1 9 4) = some (.array 9 8 8) := rfl
  have hrun : h.run (.lengthen 1 9 4) = .ok after := run_eq_ok_attempt (by decide +kernel)
  have hd : after.arena.chain.Pairwise Block.Disjoint := by decide +kernel
  exact ⟨hask, hd, granted_region_fresh _ _ hask hrun hd⟩

end Heap

end MiniC
