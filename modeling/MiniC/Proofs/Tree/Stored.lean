import MiniC.Proofs.Arena.Performing
import MiniC.Proofs.Tree.Histories

namespace MiniC

/-- A node and where it stands. -/
structure StoredNode where
  draft : Draft
  handle : Nat
  /-- The handles of the arrays that were made for its children, the latest first. -/
  arrays : List Nat

structure StoredForest where
  heap : Heap
  nodes : Array StoredNode

/-- A slot has room for an address. -/
def slot : Layout := .number 3

namespace StoredNode

/-- Makes room for the next child. -/
def growth (n : StoredNode) : List Heap.Command :=
  if n.draft.isFull then
    match n.arrays with
    | [] => [.slice slot n.draft.nextCapacity 0]
    | array :: _ => [.lengthen array n.draft.nextCapacity 0]
  else []

/-- The arrays when there is room for the next child, if `next` is the handle of a larger one. -/
def nextArrays (n : StoredNode) (next : Nat) : List Nat :=
  if n.draft.isFull then next :: n.arrays else n.arrays

def push (n : StoredNode) (next : Nat) (child : Node) : StoredNode :=
  ⟨n.draft.push child, n.handle, n.nextArrays next⟩

/-- Puts an address into the first slot that is free. -/
def place (n : StoredNode) (next address : Nat) : List Heap.Command :=
  (n.nextArrays next).head?.toList.map fun array =>
    .setElement array n.draft.children.size address

end StoredNode

/-- Makes the array for the first children, if there is to be one. -/
def Draft.slots (d : Draft) : List Heap.Command :=
  if d.capacity = 0 then [] else [.slice slot d.capacity 0]

namespace StoredForest

def empty (arena : Arena) : StoredForest := ⟨.empty arena, #[]⟩

/-- Forgets where the nodes stand. -/
def forest (s : StoredForest) : Forest := ⟨s.heap.arena, s.nodes.map (·.draft)⟩

def address (s : StoredForest) (i : Nat) : Nat :=
  match s.nodes[i]?.bind fun n => s.heap.handles[n.handle]? with
  | some x => x.region.address
  | none => 0

/-- What stands in the slots of a node that are taken. -/
def addresses (s : StoredForest) (n : StoredNode) : List Nat :=
  match n.arrays.head?.bind fun array => s.heap.handles[array]? with
  | some x => s.heap.numbers x.region slot.width n.draft.children.size
  | none => []

/-- How many slots there are in all arrays that were made for a node. -/
def slotsMade (s : StoredForest) (n : StoredNode) : Nat :=
  (n.arrays.map fun array =>
    match s.heap.handles[array]? with
    | some (.slice _ _ length) => length
    | _ => 0).sum

/-- A new node behind its array in `h`. -/
def add (s : StoredForest) (h : Heap) (d : Draft) : Except Fault StoredForest :=
  let next := h.handles.size
  (h.perform (d.slots ++ [.allocate 48 8])).map fun after =>
    ⟨after, s.nodes.push ⟨d, next + d.slots.length, d.slots.map fun _ => next⟩⟩

def alloc (s : StoredForest) (kind : NodeKind) (line wanted : Nat) : Except Fault StoredForest :=
  s.add s.heap (.empty kind line wanted)

/-- A leaf; its text is stored before it. -/
def leaf (s : StoredForest) (kind : NodeKind) (line : Nat) :
    Option String → Except Fault StoredForest
  | none => s.add s.heap (.leaf kind line none)
  | some text => do
    let h ← s.heap.run (.text text)
    s.add h (.leaf kind line (h.handles.back?.map fun x => ⟨text, x.region⟩))

/-- Puts the address of node `child` into a slot of node `parent`. -/
def append (s : StoredForest) (parent child : Nat) : Except Fault StoredForest :=
  match s.nodes[parent]?, s.nodes[child]? with
  | some p, some c =>
    let next := s.heap.handles.size
    (s.heap.perform (p.growth ++ p.place next (s.address child))).map fun after =>
      ⟨after, s.nodes.setIfInBounds parent (p.push next c.draft.close)⟩
  | _, _ => .ok s

def run (s : StoredForest) : Forest.Command → Except Fault StoredForest
  | .alloc kind line wanted => s.alloc kind line wanted
  | .leaf kind line text? => s.leaf kind line text?
  | .append parent child => s.append parent child

def attempt (s : StoredForest) (c : Forest.Command) : StoredForest :=
  match s.run c with
  | .ok after => after
  | .error _ => s

def attemptAll (s : StoredForest) : List Forest.Command → StoredForest
  | [] => s
  | c :: cs => (s.attempt c).attemptAll cs

end StoredForest

/-- The node's own bytes and its arrays, which are of the given sizes, stand in the heap. -/
structure StoredNode.Laid (h : Heap) (sizes : List Nat) (n : StoredNode) : Prop where
  own : ∃ r, h.handles[n.handle]? = some (.raw r) ∧ r.size = 48 ∧ r.address < addressSpace
  arrays : List.Forall₂ (fun array size => ∃ r, h.handles[array]? = some (.slice r slot size))
    n.arrays sizes

theorem Arena.allocateAll_singleton (a : Arena) (r : Request) :
    a.allocateAll [r] = (a.allocate r).map (·.2) := by
  unfold allocateAll
  cases a.allocate r <;> rfl

theorem Heap.asks_slots (size : Nat) (h : Heap) :
    h.Asks (.slice slot size 0) (Node.slotsRequest size) := by
  rw [Asks, run]
  exact grant_map_arena _ _

theorem Heap.asks_node (h : Heap) : h.Asks (.allocate 48 8) Node.request := by
  rw [Asks, run]
  exact grant_map_arena _ _

namespace StoredNode

variable {h after : Heap} {n : StoredNode} {sizes : List Nat}

theorem Laid.extends (hl : n.Laid h sizes) (he : h.Extends after) : n.Laid after sizes := by
  obtain ⟨⟨r, hr, hown⟩, harrays⟩ := hl
  exact ⟨⟨r, he _ _ hr, hown⟩, harrays.imp fun array size ⟨r, hr⟩ => ⟨r, he _ _ hr⟩⟩

/-- The handles that belong to a node. -/
def handles (n : StoredNode) : List Nat := n.handle :: n.arrays

theorem Laid.lt_size (hl : n.Laid h sizes) {x : Nat} (hx : x ∈ n.handles) :
    x < h.handles.size := by
  obtain ⟨y, hy⟩ : ∃ y, h.handles[x]? = some y := by
    rcases List.mem_cons.mp hx with rfl | hx
    · obtain ⟨r, hr, -⟩ := hl.own
      exact ⟨_, hr⟩
    · obtain ⟨i, rfl⟩ := List.mem_iff_get.mp hx
      obtain ⟨hlength, hget⟩ := List.forall₂_iff_get.mp hl.arrays
      obtain ⟨r, hr⟩ := hget i i.isLt (hlength ▸ i.isLt)
      exact ⟨_, hr⟩
  exact (Array.getElem?_eq_some_iff.mp hy).1

theorem perform_place (h : Heap) (n : StoredNode) (next address : Nat) :
    ∃ m, h.perform (n.place next address) = .ok { h with memory := m } := by
  unfold place
  cases (n.nextArrays next).head? with
  | none => exact ⟨h.memory, rfl⟩
  | some array =>
    obtain ⟨m, hrun⟩ :=
      h.exists_run_of_not_makes (c := .setElement array n.draft.children.size address) id
    exact ⟨m, Heap.perform_singleton.trans hrun⟩

theorem Laid.lengthen {array : Nat} {rest : List Nat} (hl : n.Laid h sizes)
    (hcapacity : sizes.headD 0 = n.draft.capacity) (harrays : n.arrays = array :: rest) :
    ∃ r, h.handles[array]? = some (.slice r slot n.draft.capacity) ∧
      n.draft.capacity ≤ n.draft.nextCapacity := by
  obtain ⟨size, tail, ⟨r, hr⟩, -, rfl⟩ := List.forall₂_cons_left_iff.mp (harrays ▸ hl.arrays)
  obtain rfl : size = n.draft.capacity := hcapacity
  refine ⟨r, hr, ?_⟩
  unfold Draft.nextCapacity
  split
  · split <;> omega
  · exact Nat.le_refl _

theorem perform_growth_map_arena (hl : n.Laid h sizes)
    (hcapacity : sizes.headD 0 = n.draft.capacity) :
    (h.perform n.growth).map (·.arena) = h.arena.allocateAll n.draft.growth := by
  unfold growth Draft.growth
  split
  · rw [Arena.allocateAll_singleton]
    cases harrays : n.arrays with
    | nil =>
      simp only [Heap.perform_singleton]
      exact h.asks_slots _
    | cons array rest =>
      obtain ⟨r, hr, hle⟩ := hl.lengthen hcapacity harrays
      simp only [Heap.perform_singleton, Heap.run, hr, if_neg (Nat.not_lt.mpr hle)]
      exact Heap.grant_map_arena _ _
  · rfl

end StoredNode

namespace StoredForest

open Forest (Command makings appendedTo Reached)

variable {a : Arena} {s after : StoredForest} {calls : List Command} {c : Command} {i : Nat}

theorem asks_requests (d : Draft) :
    List.Forall₂ (fun c r => ∀ h : Heap, h.Asks c r) (d.slots ++ [.allocate 48 8]) d.requests := by
  unfold Draft.slots Draft.requests
  split
  · exact .cons Heap.asks_node .nil
  · exact .cons (Heap.asks_slots _) (.cons Heap.asks_node .nil)

theorem forest_add (s : StoredForest) (h : Heap) (d : Draft) :
    (s.add h d).map forest = s.forest.add h.arena d := by
  have harena := Heap.perform_map_arena (h := h) (asks_requests d)
  rw [Forest.add, ← harena, add]
  cases h.perform (d.slots ++ [.allocate 48 8]) with
  | error fault => rfl
  | ok after => simp [Except.map, forest]

theorem forest_leaf (s : StoredForest) (kind : NodeKind) (line : Nat) (text? : Option String) :
    (s.leaf kind line text?).map forest = s.forest.leaf kind line text? := by
  cases text? with
  | none => exact s.forest_add s.heap _
  | some text =>
    have harena : s.forest.arena = s.heap.arena := rfl
    simp only [leaf, Forest.leaf, Arena.store?, Heap.run, Heap.grant, harena]
    cases s.heap.arena.allocate (.text text) with
    | error fault => rfl
    | ok granted =>
      simp only [Except.map, bind, Except.bind, Array.back?_push]
      exact s.forest_add _ _

theorem forest_append {p x : Nat} {n : StoredNode} {sizes : List Nat} (hn : s.nodes[p]? = some n)
    (hl : n.Laid s.heap sizes) (hcapacity : sizes.headD 0 = n.draft.capacity) :
    (s.append p x).map forest = s.forest.append p x := by
  have hp : s.forest.nodes[p]? = some n.draft := by simp [forest, hn]
  have hx : s.forest.nodes[x]? = (s.nodes[x]?).map (·.draft) := by simp [forest]
  have harena := StoredNode.perform_growth_map_arena hl hcapacity
  rw [append, Forest.append, hn, hp, hx]
  cases s.nodes[x]? with
  | none => rfl
  | some e =>
    change _ = (s.heap.arena.allocateAll n.draft.growth).map _
    simp only
    rw [← harena, Heap.perform_append]
    cases s.heap.perform n.growth with
    | error fault => rfl
    | ok mid =>
      obtain ⟨m, hm⟩ := StoredNode.perform_place mid n s.heap.handles.size (s.address x)
      simp only [hm]
      simp [Except.map, forest, StoredNode.push]

end StoredForest

end MiniC
