import MiniC.Proofs.Tree.Stored

namespace MiniC

namespace StoredNode

variable {h mid : Heap} {n : StoredNode} {sizes : List Nat}

theorem growth_cases (hl : n.Laid h sizes) (hcapacity : sizes.headD 0 = n.draft.capacity)
    (hp : h.perform n.growth = .ok mid) :
    (n.draft.isFull = false ∧ mid = h) ∨
      (n.draft.isFull ∧ ∃ r, mid.handles = h.handles.push (.slice r slot n.draft.nextCapacity)) := by
  unfold growth at hp
  split at hp
  · next hfull =>
    refine .inr ⟨hfull, ?_⟩
    cases harrays : n.arrays with
    | nil =>
      simp only [harrays, Heap.perform_singleton, Heap.run] at hp
      obtain ⟨r, -, hr⟩ := Heap.grant_eq_ok hp
      exact ⟨r, hr⟩
    | cons array rest =>
      obtain ⟨r', hr', hle⟩ := hl.lengthen hcapacity harrays
      simp only [harrays, Heap.perform_singleton, Heap.run, hr', if_neg (Nat.not_lt.mpr hle)] at hp
      obtain ⟨r, -, hr⟩ := Heap.grant_eq_ok hp
      exact ⟨r, hr⟩
  · next hroom =>
    exact .inl ⟨by simpa using hroom, (Except.ok.inj hp).symm⟩

theorem mem_handles_push {next x : Nat} {child : Node} (hx : x ∈ (n.push next child).handles) :
    x ∈ n.handles ∨ x = next := by
  simp only [handles, push, nextArrays, List.mem_cons] at hx ⊢
  split at hx
  · rw [List.mem_cons] at hx
    tauto
  · exact .inl hx

theorem Laid.exists_array {wanted count : Nat} (hl : n.Laid h (arraysAfter wanted count))
    (hpos : count ≠ 0) : ∃ array rest r, n.arrays = array :: rest ∧
      h.handles[array]? = some (.slice r slot (slotsAfter wanted count)) := by
  have hhead := headD_arraysAfter wanted count
  have hle := le_slotsAfter wanted count
  obtain ⟨-, harrays⟩ := hl
  cases hsizes : arraysAfter wanted count with
  | nil =>
    rw [hsizes] at hhead
    change 0 = slotsAfter wanted count at hhead
    omega
  | cons size sizes =>
    rw [hsizes] at hhead harrays
    obtain ⟨array, rest, ⟨r, hr⟩, -, heq⟩ := List.forall₂_cons_right_iff.mp harrays
    obtain rfl : size = slotsAfter wanted count := hhead
    exact ⟨array, rest, r, heq, hr⟩

/-- With the next child the node has the arrays that it should have then. -/
theorem Laid.grow {m : Making} {count : Nat} (hl : n.Laid h (arraysAfter m.wanted count))
    (hfollows : n.draft.Follows m count) (hp : h.perform n.growth = .ok mid) (child : Node) :
    (n.push h.handles.size child).Laid mid (arraysAfter m.wanted (count + 1)) := by
  have hcapacity := (headD_arraysAfter m.wanted count).trans hfollows.capacity.symm
  have hnext : n.draft.nextCapacity = slotsAfter m.wanted (count + 1) :=
    (hfollows.push child).capacity
  have hfull : n.draft.isFull ↔ count = slotsAfter m.wanted count := by
    rw [Draft.isFull, beq_iff_eq, hfollows.size, hfollows.capacity]
  obtain ⟨⟨r, hr, hown⟩, harrays⟩ := hl.extends (Heap.extends_perform hp)
  refine ⟨⟨r, hr, hown⟩, ?_⟩
  rw [arraysAfter]
  rcases growth_cases hl hcapacity hp with ⟨hroom, -⟩ | ⟨hgrown, r', hr'⟩
  · have hne : count ≠ slotsAfter m.wanted count := fun heq => by simp [hfull.mpr heq] at hroom
    simp only [push, nextArrays, hroom, if_neg hne, Bool.false_eq_true, if_false]
    exact harrays
  · simp only [push, nextArrays, hgrown, if_pos (hfull.mp hgrown), if_true]
    refine .cons ⟨r', ?_⟩ harrays
    rw [hr', hnext]
    exact Array.getElem?_push_size

end StoredNode

namespace StoredForest

open Forest (Command makings appendedTo Reached)

variable {a : Arena} {s after : StoredForest} {calls : List Command} {c : Command} {i : Nat}

@[simp] theorem size_nodes_forest (s : StoredForest) : s.forest.nodes.size = s.nodes.size :=
  Array.size_map ..

theorem forest_empty (a : Arena) : (empty a).forest = .empty a := by
  simp [forest, empty, Forest.empty, Heap.empty]

/-- The nodes are as the calls tell, also where they stand, and nothing belongs to two of them. -/
structure Follows (a : Arena) (calls : List Command) (s : StoredForest) : Prop where
  forest : Reached a calls s.forest
  laid : ∀ (i : Nat) (n : StoredNode) (m : Making), s.nodes[i]? = some n →
    (makings calls)[i]? = some m →
      n.Laid s.heap (arraysAfter m.wanted (appendedTo i calls).length)
  apart : ∀ (i j : Nat) (n n' : StoredNode), i ≠ j → s.nodes[i]? = some n → s.nodes[j]? = some n' →
    n.handles.Disjoint n'.handles

namespace Follows

variable {n : StoredNode}

theorem empty (a : Arena) : (StoredForest.empty a).Follows a [] := by
  refine ⟨?_, ?_, ?_⟩
  · rw [forest_empty]
    exact .start
  · simp [StoredForest.empty]
  · simp [StoredForest.empty]

theorem node (h : s.Follows a calls) (hn : s.nodes[i]? = some n) :
    ∃ m, (makings calls)[i]? = some m ∧ n.draft.Follows m (appendedTo i calls).length ∧
      n.Laid s.heap (arraysAfter m.wanted (appendedTo i calls).length) := by
  have hd : s.forest.nodes[i]? = some n.draft := by simp [StoredForest.forest, hn]
  obtain ⟨m, hm, hfollows⟩ := h.forest.follows.node i n.draft hd
  exact ⟨m, hm, hfollows, h.laid i n m hn hm⟩

theorem forest_run (h : s.Follows a calls) (c : Command) :
    (s.run c).map StoredForest.forest = s.forest.run c := by
  cases c with
  | alloc kind line wanted => exact s.forest_add _ _
  | leaf kind line text? => exact s.forest_leaf kind line text?
  | append p x =>
    cases hn : s.nodes[p]? with
    | none =>
      have hp : s.forest.nodes[p]? = none := by simp [StoredForest.forest, hn]
      simp only [run, append, hn, Forest.run, Forest.append, hp]
      rfl
    | some n =>
      obtain ⟨m, hm, hfollows, hl⟩ := h.node hn
      exact forest_append hn hl ((headD_arraysAfter _ _).trans hfollows.capacity.symm)

end Follows

/-- A new node and its array, if it has one, get the next handles. -/
theorem laid_new {h final : Heap} {d : Draft}
    (hp : h.perform (d.slots ++ [.allocate 48 8]) = .ok final) :
    StoredNode.Laid final (if d.capacity = 0 then [] else [d.capacity])
      ⟨d, h.handles.size + d.slots.length, d.slots.map fun _ => h.handles.size⟩ := by
  obtain ⟨mid, hslots, hnode⟩ := Heap.perform_append_eq_ok.mp hp
  rw [Heap.perform_singleton, Heap.run] at hnode
  obtain ⟨r, ha, hr⟩ := Heap.grant_eq_ok hnode
  have hsize : r.size = 48 := (Arena.allocate_fresh ha).1
  have haddress : r.address < addressSpace := Arena.address_lt_of_allocate ha
  have hlast : final.handles[mid.handles.size]? = some (.raw r) := by
    rw [hr]
    exact Array.getElem?_push_size
  unfold Draft.slots at hslots ⊢
  split at hslots
  · next hzero =>
    obtain rfl := Except.ok.inj hslots
    simp only [if_pos hzero]
    exact ⟨⟨r, hlast, hsize, haddress⟩, .nil⟩
  · next hpos =>
    rw [Heap.perform_singleton, Heap.run] at hslots
    obtain ⟨r', -, hr'⟩ := Heap.grant_eq_ok hslots
    have hmid : mid.handles.size = h.handles.size + 1 := by rw [hr', Array.size_push]
    have hfirst : final.handles[h.handles.size]? = some (.slice r' slot d.capacity) := by
      refine Heap.extends_of_push hr _ _ ?_
      rw [hr']
      exact Array.getElem?_push_size
    simp only [if_neg hpos]
    exact ⟨⟨r, hmid ▸ hlast, hsize, haddress⟩, .cons ⟨r', hfirst⟩ .nil⟩

theorem add_eq_ok {h : Heap} {d : Draft} (hadd : s.add h d = .ok after) :
    h.perform (d.slots ++ [.allocate 48 8]) = .ok after.heap ∧
      after.nodes = s.nodes.push
        ⟨d, h.handles.size + d.slots.length, d.slots.map fun _ => h.handles.size⟩ := by
  unfold add at hadd
  cases hp : h.perform (d.slots ++ [.allocate 48 8]) with
  | error fault => simp [hp, Except.map] at hadd
  | ok final =>
    simp only [hp, Except.map, Except.ok.injEq] at hadd
    subst hadd
    exact ⟨rfl, rfl⟩

/-- A text may be stored before a new node, but nothing else. -/
theorem make_cases {m : Making} (hm : c.making? = some m) (hrun : s.run c = .ok after) :
    ∃ (texts : List String) (h : Heap) (d : Draft), s.heap.perform (texts.map .text) = .ok h ∧
      d.capacity = slotCount m.wanted ∧ s.add h d = .ok after := by
  cases c with
  | append p x => simp [Command.making?] at hm
  | alloc kind line wanted =>
    obtain rfl := Option.some.inj hm
    exact ⟨[], _, _, rfl, rfl, hrun⟩
  | leaf kind line text? =>
    obtain rfl := Option.some.inj hm
    cases text? with
    | none => exact ⟨[], _, _, rfl, rfl, hrun⟩
    | some text =>
      simp only [run, leaf] at hrun
      cases htext : s.heap.run (.text text) with
      | error fault => simp [htext, bind, Except.bind] at hrun
      | ok h =>
        simp only [htext, bind, Except.bind] at hrun
        exact ⟨[text], h, _, Heap.perform_singleton.trans htext, rfl, hrun⟩

theorem append_eq_ok {p x : Nat} {n e : StoredNode} (hn : s.nodes[p]? = some n)
    (he : s.nodes[x]? = some e) (hrun : s.append p x = .ok after) :
    ∃ mid, s.heap.perform n.growth = .ok mid ∧
      mid.perform (n.place s.heap.handles.size (s.address x)) = .ok after.heap ∧
      after.nodes =
        s.nodes.setIfInBounds p (n.push s.heap.handles.size e.draft.close) := by
  simp only [append, hn, he] at hrun
  cases hp : s.heap.perform (n.growth ++ n.place s.heap.handles.size (s.address x)) with
  | error fault => simp [hp, Except.map] at hrun
  | ok final =>
    simp only [hp, Except.map, Except.ok.injEq] at hrun
    subst hrun
    obtain ⟨mid, hgrowth, hplace⟩ := Heap.perform_append_eq_ok.mp hp
    exact ⟨mid, hgrowth, hplace, rfl⟩

/-- All handles stay what they are, and all nodes where they are. -/
structure Keeps (s after : StoredForest) : Prop where
  heap : s.heap.Extends after.heap
  node : ∀ (i : Nat) (n : StoredNode), s.nodes[i]? = some n →
    ∃ n', after.nodes[i]? = some n' ∧ n'.handle = n.handle

theorem keeps_make {m : Making} (hm : c.making? = some m) (hrun : s.run c = .ok after) :
    s.Keeps after := by
  obtain ⟨texts, h₀, d, htexts, -, hadd⟩ := make_cases hm hrun
  obtain ⟨hp, hnodes⟩ := add_eq_ok hadd
  refine ⟨(Heap.extends_perform htexts).trans (Heap.extends_perform hp), fun i n hn => ?_⟩
  obtain ⟨hi, -⟩ := Array.getElem?_eq_some_iff.mp hn
  rw [hnodes, Array.getElem?_push, if_neg hi.ne]
  exact ⟨n, hn, rfl⟩

theorem keeps_append {p x : Nat} {n e : StoredNode} (hn : s.nodes[p]? = some n)
    (he : s.nodes[x]? = some e) (hrun : s.append p x = .ok after) : s.Keeps after := by
  obtain ⟨mid, hgrowth, hplace, hnodes⟩ := append_eq_ok hn he hrun
  refine ⟨(Heap.extends_perform hgrowth).trans (Heap.extends_perform hplace), fun i n' hn' => ?_⟩
  obtain ⟨hi, -⟩ := Array.getElem?_eq_some_iff.mp hn'
  rw [hnodes, Array.getElem?_setIfInBounds]
  split
  · next heq =>
    subst heq
    obtain rfl := Option.some.inj (hn.symm.trans hn')
    exact ⟨_, if_pos hi, rfl⟩
  · exact ⟨n', hn', rfl⟩

namespace Follows

variable {n : StoredNode}

theorem reached_call (h : s.Follows a calls) (hc : c.Applies s.nodes.size)
    (hrun : s.run c = .ok after) : Reached a (calls ++ [c]) after.forest := by
  have hforest : s.forest.run c = .ok after.forest := by
    rw [← h.forest_run c, hrun]
    rfl
  exact .call h.forest (s.size_nodes_forest ▸ hc) hforest

theorem size_eq (h : s.Follows a calls) : s.nodes.size = (makings calls).length := by
  rw [← h.forest.follows.size, size_nodes_forest]

theorem lt_nodes_size (h : s.Follows a calls) {x : Nat} (hx : x ∈ appendedTo i calls) :
    x < s.nodes.size := by
  rw [← s.size_nodes_forest]
  exact h.forest.follows.lt_size hx

theorem lt_size (h : s.Follows a calls) (hn : s.nodes[i]? = some n) {x : Nat}
    (hx : x ∈ n.handles) : x < s.heap.handles.size := by
  obtain ⟨m, -, -, hl⟩ := h.node hn
  exact hl.lt_size hx

theorem make {m : Making} (h : s.Follows a calls) (hc : c.Applies s.nodes.size)
    (hm : c.making? = some m) (hrun : s.run c = .ok after) : after.Follows a (calls ++ [c]) := by
  obtain ⟨texts, h₀, d, htexts, hcapacity, hadd⟩ := make_cases hm hrun
  obtain ⟨hp, hnodes⟩ := add_eq_ok hadd
  have hextends : s.heap.Extends after.heap := (keeps_make hm hrun).heap
  have hl := laid_new hp
  rw [hcapacity] at hl
  set new : StoredNode :=
    ⟨d, h₀.handles.size + d.slots.length, d.slots.map fun _ => h₀.handles.size⟩
  -- a new node has new handles, and so none of another node
  have hnew : ∀ x ∈ new.handles, s.heap.handles.size ≤ x := fun x hx => by
    refine (Heap.extends_perform htexts).size_le.trans ?_
    rcases List.mem_cons.mp hx with rfl | hx
    · exact Nat.le_add_right _ _
    · obtain ⟨-, -, rfl⟩ := List.mem_map.mp hx
      exact Nat.le_refl _
  refine ⟨h.reached_call hc hrun, fun i n' m' hn' hm' => ?_, fun i j n n' hij hn hn' => ?_⟩
  · rw [Forest.makings_of_make hm] at hm'
    rw [Forest.appendedTo_of_make hm]
    rw [hnodes] at hn'
    rcases getElem?_push_cases hn' with ⟨rfl, rfl⟩ | ⟨hi, hn'⟩
    · rw [h.size_eq, List.getElem?_concat_length] at hm'
      obtain rfl := Option.some.inj hm'
      rw [h.forest.follows.appendedTo_eq_nil s.size_nodes_forest.le]
      exact hl
    · rw [List.getElem?_append_left (h.size_eq ▸ hi)] at hm'
      exact (h.laid i n' m' hn' hm').extends hextends
  · have happart : ∀ (k : Nat) (n' : StoredNode), s.nodes[k]? = some n' →
        new.handles.Disjoint n'.handles :=
      fun k n' hn' x hx hx' => absurd (h.lt_size hn' hx') (Nat.not_lt.mpr (hnew x hx))
    rw [hnodes] at hn hn'
    rcases getElem?_push_cases hn with ⟨hi, rfl⟩ | ⟨-, hn⟩
    · rcases getElem?_push_cases hn' with ⟨hj, -⟩ | ⟨-, hn'⟩
      · exact absurd (hi.trans hj.symm) hij
      · exact happart j n' hn'
    · rcases getElem?_push_cases hn' with ⟨-, rfl⟩ | ⟨-, hn'⟩
      · exact (happart i n hn).symm
      · exact h.apart i j n n' hij hn hn'

theorem append {p x : Nat} (h : s.Follows a calls) (hc : (Command.append p x).Applies s.nodes.size)
    (hrun : s.append p x = .ok after) : after.Follows a (calls ++ [.append p x]) := by
  obtain ⟨n, hn⟩ : ∃ n, s.nodes[p]? = some n := ⟨_, Array.getElem?_eq_getElem hc.1⟩
  obtain ⟨e, he⟩ : ∃ e, s.nodes[x]? = some e := ⟨_, Array.getElem?_eq_getElem hc.2⟩
  obtain ⟨m, hm, hfollows, hl⟩ := h.node hn
  obtain ⟨mid, hgrowth, hplace, hnodes⟩ := append_eq_ok hn he hrun
  have hextends : s.heap.Extends after.heap := (keeps_append hn he hrun).heap
  set new := n.push s.heap.handles.size e.draft.close
  have hl : new.Laid after.heap (arraysAfter m.wanted ((appendedTo p calls).length + 1)) :=
    (hl.grow hfollows hgrowth _).extends (Heap.extends_perform hplace)
  -- the array may be new, and all others of the node were its own before
  have happart : ∀ j n', p ≠ j → s.nodes[j]? = some n' → new.handles.Disjoint n'.handles := by
    intro j n' hj hn' y hy hy'
    rcases StoredNode.mem_handles_push hy with hy | rfl
    · exact h.apart p j n n' hj hn hn' hy hy'
    · exact Nat.lt_irrefl _ (h.lt_size hn' hy')
  refine ⟨h.reached_call hc hrun, fun i n' m' hn' hm' => ?_, fun i j n₁ n₂ hij hn₁ hn₂ => ?_⟩
  · rw [Forest.makings_of_append] at hm'
    rw [Forest.appendedTo_of_append]
    rw [hnodes] at hn'
    rcases getElem?_set_cases hn' with ⟨rfl, rfl⟩ | ⟨hi, hn'⟩
    · obtain rfl := Option.some.inj (hm.symm.trans hm')
      rw [if_pos rfl, List.length_append]
      exact hl
    · rw [if_neg hi.symm, List.append_nil]
      exact (h.laid i n' m' hn' hm').extends hextends
  · rw [hnodes] at hn₁ hn₂
    rcases getElem?_set_cases hn₁ with ⟨rfl, rfl⟩ | ⟨hi, hold₁⟩
    · rcases getElem?_set_cases hn₂ with ⟨hj, -⟩ | ⟨-, hold₂⟩
      · exact absurd hj.symm hij
      · exact happart j n₂ hij hold₂
    · rcases getElem?_set_cases hn₂ with ⟨rfl, rfl⟩ | ⟨-, hold₂⟩
      · exact (happart i n₁ hi.symm hold₁).symm
      · exact h.apart i j n₁ n₂ hij hold₁ hold₂

theorem run (h : s.Follows a calls) (hc : c.Applies s.nodes.size) (hrun : s.run c = .ok after) :
    after.Follows a (calls ++ [c]) := by
  cases c with
  | append p x => exact h.append hc hrun
  | _ => exact h.make hc rfl hrun

end Follows

end StoredForest

end MiniC
