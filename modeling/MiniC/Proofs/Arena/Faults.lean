import MiniC.Proofs.Arena.Stepwise
import MiniC.Proofs.Tree.Growth

namespace MiniC

def Faults {α : Type} (e : Except Fault α) : Prop := ∃ fault, e = .error fault

@[simp] theorem not_faults_ok {α : Type} (v : α) : ¬Faults (.ok v : Except Fault α) := by
  simp [Faults]

@[simp] theorem faults_error {α : Type} (fault : Fault) : Faults (.error fault : Except Fault α) :=
  ⟨fault, rfl⟩

@[simp] theorem faults_map {α β : Type} (e : Except Fault α) (f : α → β) :
    Faults (e.map f) ↔ Faults e := by
  cases e <;> simp [Except.map]

namespace Arena

variable {a : Arena} {r : Request}

namespace Lawful

theorem faults_iff (h : a.Lawful) (hfault : r.fault? = none) :
    Faults (a.allocate r) ↔ ¬a.HasRoom r ∧ ¬Chainable r := by
  rw [h.allocate_eq hfault, ← not_or]
  by_cases hgranted : a.HasRoom r ∨ Chainable r
  · simp [hgranted]
  · simp [hgranted]

theorem faults_bytes_iff (h : a.Lawful) (size align : Nat) :
    Faults (a.allocate (.bytes size align)) ↔
      isPowerOfTwo align = false ∨
        a.active.base + a.active.capacity < roundUp a.active.cursor align + size ∧
          sizeLimit < max size leastBlock + max align blockAlign := by
  cases ha : isPowerOfTwo align with
  | false =>
    have hfault : (Request.bytes size align).fault? = some .alignment := by
      simp [Request.fault?, ha]
    simp [Arena.allocate, hfault]
  | true =>
    have hfault : (Request.bytes size align).fault? = none := by simp [Request.fault?, ha]
    rw [h.faults_iff hfault, HasRoom, Chainable, Nat.not_le, Nat.not_le]
    simp [Request.size, Request.align, freshCapacity, freshAlign]

theorem faults_array_iff (h : a.Lawful) (length width : Nat) {align : Nat}
    (ha : isPowerOfTwo align) :
    Faults (a.allocate (.array length width align)) ↔
      sizeLimit < length * width + align ∨ Faults (a.allocate (.bytes (length * width) align)) := by
  by_cases hlimit : sizeLimit < length * width + align
  · have hfault : (Request.array length width align).fault? = some .tooLarge := by
      simp only [Request.fault?, if_pos hlimit]
    simp [Arena.allocate, hfault, hlimit]
  · have harray : (Request.array length width align).fault? = none := by
      simp only [Request.fault?, if_neg hlimit, ha, if_true]
    have hbytes : (Request.bytes (length * width) align).fault? = none := by
      simp only [Request.fault?, ha, if_true]
    rw [h.faults_iff harray, h.faults_iff hbytes]
    simp only [hlimit, false_or]
    rfl

theorem faults_allocateAll_iff (h : a.Lawful) {rs : List Request} (hrs : ∀ s ∈ rs, s.Modest) :
    Faults (a.allocateAll (r :: rs)) ↔ Faults (a.allocate r) := by
  unfold allocateAll
  cases ha : a.allocate r with
  | error fault => simp
  | ok granted =>
    have hrest := (Stepwise.allocateAll_modest (h.allocate ha) hrs).2
    simp [hrest]

end Lawful

end Arena

namespace Heap

theorem faults_grant {h : Heap} {r : Request} {make : Region → Handle}
    {init : Memory → Region → Memory} :
    Faults (h.grant r make init) ↔ Faults (h.arena.allocate r) := faults_map _ _

/-- Commands that were refused can be left out of a history. -/
theorem attemptAll_granted (h : Heap) (cs : List Command) :
    h.attemptAll (h.granted cs) = h.attemptAll cs := by
  induction cs generalizing h with
  | nil => rfl
  | cons c cs ih =>
    cases hrun : h.run c with
    | ok after =>
      simp only [granted, hrun, attemptAll, attempt]
      exact ih after
    | error fault =>
      simp only [granted, hrun, attemptAll, attempt]
      exact ih h

end Heap

namespace Draft

variable {a : Arena}

theorem faults_requests_iff (h : a.Lawful) (kind : NodeKind) (line wanted : Nat) :
    Faults (a.allocateAll (Draft.empty kind line wanted).requests) ↔
      wanted ≠ 0 ∧ Faults (a.allocate (Node.slotsRequest (slotCount wanted))) := by
  simp only [requests, empty, slotCount_eq_zero_iff]
  split
  · next hzero =>
    rw [h.faults_allocateAll_iff (by simp), h.allocate_modest Node.modest_request]
    simp [hzero]
  · next hpos =>
    rw [h.faults_allocateAll_iff (by simp [Node.modest_request])]
    simp [hpos]

theorem faults_growth_iff (h : a.Lawful) (d : Draft) :
    Faults (a.allocateAll d.growth) ↔
      d.isFull ∧ Faults (a.allocate (Node.slotsRequest d.nextCapacity)) := by
  unfold growth
  split
  · next hfull =>
    rw [h.faults_allocateAll_iff (by simp)]
    simp [hfull]
  · next hfull => simp [hfull, Arena.allocateAll]

end Draft

/-- After any commands the arena is as if those that faulted had never been made, and each call
faults exactly as told here and leaves everything as it is when it does. -/
theorem faults_exact {place : Placement} {capacity : Nat} {first : Arena} (hplace : place.Lawful)
    (hcreate : Arena.create place capacity = .ok first) (cs : List Heap.Command) :
    let h := Stepwise.runAll (Heap.empty first) cs
    let b := h.arena.active
    h = (Heap.empty first).attemptAll ((Heap.empty first).granted cs) ∧
      (∀ c, Stepwise.run c h = Stepwise.settle h (h.run c)) ∧
      (∀ size align, Faults (h.run (.allocate size align)) ↔
        isPowerOfTwo align = false ∨
          b.base + b.capacity < roundUp b.cursor align + size ∧
            sizeLimit < max size leastBlock + max align blockAlign) ∧
      (∀ layout length v, Faults (h.run (.slice layout length v)) ↔
        sizeLimit < length * layout.width + layout.align ∨
          Faults (h.run (.allocate (length * layout.width) layout.align))) ∧
      (∀ handle r layout old length v, h.handles[handle]? = some (.slice r layout old) →
        (Faults (h.run (.lengthen handle length v)) ↔
          length < old ∨ sizeLimit < length * layout.width + layout.align ∨
            Faults (h.run (.allocate (length * layout.width) layout.align)))) ∧
      ∀ nodes : Array Draft, let f : Forest := ⟨h.arena, nodes⟩
        (∀ kind line wanted,
          Stepwise.alloc kind line wanted f = Stepwise.settle f (f.alloc kind line wanted) ∧
            (Faults (f.alloc kind line wanted) ↔
              wanted ≠ 0 ∧ Faults (f.arena.allocate (Node.slotsRequest (slotCount wanted))))) ∧
        ∀ parent child,
          Stepwise.append parent child f = Stepwise.settle f (f.append parent child) ∧
            ∀ p c, nodes[parent]? = some p → nodes[child]? = some c →
              (Faults (f.append parent child) ↔
                p.isFull ∧ Faults (f.arena.allocate (Node.slotsRequest p.nextCapacity))) := by
  intro h b
  -- step by step, a command that faults leaves what it found
  have hrun : h = (Heap.empty first).attemptAll cs :=
    Stepwise.runAll_eq (Arena.lawful_of_create hplace hcreate) cs
  have hl : h.arena.Lawful := by
    rw [hrun]
    exact Heap.lawful_of_create hplace hcreate cs
  have hbytes (size align : Nat) :
      Faults (h.run (.allocate size align)) ↔ Faults (h.arena.allocate (.bytes size align)) := by
    rw [Heap.run]
    exact Heap.faults_grant
  refine ⟨hrun.trans (Heap.attemptAll_granted _ cs).symm, Stepwise.run_eq hl,
    fun size align => ?_, fun layout length v => ?_,
    fun handle r layout old length v hhandle => ?_, fun nodes => ⟨fun kind line wanted => ⟨?_, ?_⟩,
    fun parent child => ⟨?_, fun p c hp hc => ?_⟩⟩⟩
  · rw [hbytes]
    exact hl.faults_bytes_iff size align
  · rw [hbytes, ← hl.faults_array_iff length layout.width layout.isPowerOfTwo_align, Heap.run]
    exact Heap.faults_grant
  · rw [hbytes, ← hl.faults_array_iff length layout.width layout.isPowerOfTwo_align, Heap.run, hhandle]
    by_cases hlt : length < old
    · simp [hlt]
    · simp only [hlt, if_false, false_or]
      exact Heap.faults_grant
  · exact Stepwise.alloc_eq hl kind line wanted
  · exact (faults_map _ _).trans (Draft.faults_requests_iff hl kind line wanted)
  · exact Stepwise.append_eq hl parent child
  · simp only [Forest.append, hp, hc]
    exact (faults_map _ _).trans (Draft.faults_growth_iff hl p)

/-- Sizes that no block can have; and a slice that is asked to shrink. -/
theorem faults_exact_oversized :
    let first := Arena.ofCapacity .packedAgain 64
    let cs : List Heap.Command := [.allocate 4 3, .slice (.number 3) 5 7, .allocate sizeLimit 1]
    let h := Stepwise.runAll (Heap.empty first) cs
    let f : Forest := ⟨h.arena, #[]⟩
    Placement.packedAgain.Lawful ∧ Arena.create .packedAgain 64 = .ok first ∧
      h = (Heap.empty first).attemptAll ((Heap.empty first).granted cs) ∧
      ((Heap.empty first).granted cs).length = 1 ∧
      Faults (h.run (.lengthen 0 4 1)) ∧ Faults (h.run (.lengthen 0 (1 <<< 60) 1)) ∧
      Stepwise.run (.lengthen 0 4 1) h = Stepwise.settle h (h.run (.lengthen 0 4 1)) ∧
      Faults (f.alloc .type 1 (1 <<< 60)) ∧
      Stepwise.alloc .type 1 (1 <<< 60) f = Stepwise.settle f (f.alloc .type 1 (1 <<< 60)) := by
  intro first cs h f
  have hcreate : Arena.create .packedAgain 64 = .ok first := rfl
  obtain ⟨hgranted, hsteps, -, -, hlengthen, hnodes⟩ :=
    faults_exact Placement.lawful_packedAgain hcreate cs
  have hhandle : h.handles[0]? = some (.slice ⟨0, leastBlock, 40⟩ (.number 3) 5) := by
    decide +kernel
  obtain ⟨hcalls, hfaults⟩ := (hnodes #[]).1 .type 1 (1 <<< 60)
  have hslots : Faults (f.arena.allocate (Node.slotsRequest (slotCount (1 <<< 60)))) :=
    ⟨.tooLarge, rfl⟩
  refine ⟨Placement.lawful_packedAgain, hcreate, hgranted, by decide +kernel, ?_, ?_, hsteps _, ?_,
    hcalls⟩
  · exact (hlengthen 0 _ _ _ 4 1 hhandle).mpr (.inl (by decide))
  · exact (hlengthen 0 _ _ _ (1 <<< 60) 1 hhandle).mpr (.inr (.inl (by decide)))
  · exact hfaults.mpr ⟨by decide, hslots⟩

end MiniC
