import MiniC.Proofs.Arena.Readback
import MiniC.Proofs.Tree.Laid

namespace MiniC

/-- The array holds the addresses in its first slots. -/
def Filled (known : List Contents) (arrays : List Nat) (addresses : List Nat) : Prop :=
  ∀ array, arrays.head? = some array → ∃ elements,
    known[array]? = some (.slice slot elements) ∧ elements.take addresses.length = addresses

theorem Draft.makes_slots (d : Draft) : ∀ c ∈ d.slots, c.Makes := by
  intro c hc
  unfold slots at hc
  split at hc
  · exact absurd hc List.not_mem_nil
  · obtain rfl := List.mem_singleton.mp hc
    trivial

theorem filled_nil {h : Heap} {known : List Contents} {n : StoredNode} {sizes : List Nat}
    (ht : h.Tracks known) (hl : n.Laid h sizes) : Filled known n.arrays [] := by
  intro array harray
  obtain ⟨rest, harrays⟩ := List.head?_eq_some_iff.mp harray
  obtain ⟨size, tail, ⟨r, hr⟩, -⟩ := List.forall₂_cons_left_iff.mp (harrays ▸ hl.arrays)
  obtain ⟨c, hc, hm, -⟩ := ht.exists_contents hr
  obtain ⟨elements, rfl, -⟩ := hm.of_slice
  exact ⟨elements, hc, rfl⟩

theorem Filled.append {known : List Contents} {arrays addresses : List Nat}
    (hf : Filled known arrays addresses) (more : List Contents) :
    Filled (known ++ more) arrays addresses := by
  intro array harray
  obtain ⟨elements, hknown, htake⟩ := hf array harray
  obtain ⟨hlt, -⟩ := List.getElem?_eq_some_iff.mp hknown
  exact ⟨elements, (List.getElem?_append_left hlt).trans hknown, htake⟩

/-- An array that belongs to another node is not written to. -/
theorem Filled.set_ne {known : List Contents} {arrays addresses : List Nat} {array : Nat}
    {c : Contents} (hf : Filled known arrays addresses) (hne : array ∉ arrays) :
    Filled (known.set array c) arrays addresses := by
  intro array' harray'
  obtain ⟨elements, hknown, htake⟩ := hf array' harray'
  have harray : array ≠ array' := fun heq => hne (heq ▸ List.mem_of_head? harray')
  exact ⟨elements, (List.getElem?_set_ne harray).trans hknown, htake⟩

theorem Filled.push {known : List Contents} {array : Nat} {rest addresses elements : List Nat}
    (hf : Filled known (array :: rest) addresses)
    (hknown : known[array]? = some (.slice slot elements))
    (hroom : addresses.length < elements.length) (address : Nat) :
    Filled (known.set array (.slice slot (elements.set addresses.length address)))
      (array :: rest) (addresses ++ [address]) := by
  intro array' harray'
  obtain rfl := Option.some.inj harray'
  obtain ⟨elements', hknown', htake⟩ := hf array rfl
  obtain ⟨-, rfl⟩ := Contents.slice.inj (Option.some.inj (hknown'.symm.trans hknown))
  obtain ⟨hlt, -⟩ := List.getElem?_eq_some_iff.mp hknown
  refine ⟨_, List.getElem?_set_self hlt, ?_⟩
  rw [List.set_eq_take_append_cons_drop, if_pos hroom, htake,
    List.append_cons addresses address (elements'.drop _)]
  exact List.take_left

namespace StoredNode

variable {h mid : Heap} {n : StoredNode} {sizes addresses : List Nat} {known : List Contents}

/-- A larger array begins as the one that it replaces. -/
theorem filled_growth (ht : h.Tracks known) (hl : n.Laid h sizes)
    (hcapacity : sizes.headD 0 = n.draft.capacity)
    (hsize : n.draft.children.size = addresses.length) (hf : Filled known n.arrays addresses)
    (hp : h.perform n.growth = .ok mid) (hd : mid.arena.chain.Pairwise Block.Disjoint) :
    ∃ more, mid.Tracks (known ++ more) ∧
      Filled (known ++ more) (n.nextArrays h.handles.size) addresses := by
  have hmid := ht.perform hp hd
  unfold growth at hp hmid
  unfold nextArrays
  split
  · next hfull =>
    have hcount : n.draft.capacity = addresses.length := by
      rw [← hsize]
      exact (beq_iff_eq.mp hfull).symm
    rw [if_pos hfull] at hmid
    have hlast (c : Contents) : (known ++ [c])[h.handles.size]? = some c := by
      rw [ht.length]
      exact List.getElem?_concat_length
    cases harrays : n.arrays with
    | nil =>
      rw [harrays] at hmid
      -- without an array there was no room for any child
      have hnone : addresses = [] := by
        have hnil : sizes = [] := List.forall₂_nil_left_iff.mp (harrays ▸ hl.arrays)
        rw [hnil, hcount] at hcapacity
        exact List.eq_nil_of_length_eq_zero hcapacity.symm
      refine ⟨_, hmid, fun array harray => ?_⟩
      obtain rfl := Option.some.inj harray
      exact ⟨_, hlast _, by simp [hnone]⟩
    | cons array rest =>
      obtain ⟨r, hr, hle⟩ := hl.lengthen hcapacity harrays
      obtain ⟨elements, hknown, htake⟩ := hf array (by simp [harrays])
      have hlength : elements.length = n.draft.capacity := ht.length_of_slice hr hknown
      -- the longer array begins as the one before it
      have hrecord : Contents.record known (.lengthen array n.draft.nextCapacity 0) =
          known ++ [Contents.slice slot (elements.rightpad n.draft.nextCapacity 0)] := by
        simp only [Contents.record, hknown]
      rw [harrays] at hmid
      simp only [List.foldl_cons, List.foldl_nil, hrecord] at hmid
      refine ⟨_, hmid, fun array' harray' => ?_⟩
      obtain rfl := Option.some.inj harray'
      refine ⟨_, hlast _, ?_⟩
      rw [List.rightpad, List.take_append_of_le_length (by omega)]
      exact htake
  · next hroom =>
    rw [if_neg hroom] at hmid
    exact ⟨[], by rwa [List.append_nil], by rwa [List.append_nil]⟩

/-- The address of one more child goes behind the others, and no array of another node changes. -/
theorem filled_push {m : Making} {final : Heap} {count address : Nat} (ht : h.Tracks known)
    (hl : n.Laid h (arraysAfter m.wanted count)) (hfollows : n.draft.Follows m count)
    (hf : Filled known n.arrays addresses) (hcount : addresses.length = count)
    (hgrowth : h.perform n.growth = .ok mid)
    (hplace : mid.perform (n.place h.handles.size address) = .ok final)
    (hd : final.arena.chain.Pairwise Block.Disjoint) :
    ∃ more array c, final.Tracks ((known ++ more).set array c) ∧
      array ∈ n.nextArrays h.handles.size ∧
      Filled ((known ++ more).set array c) (n.nextArrays h.handles.size)
        (addresses ++ [address]) := by
  have hcapacity := (headD_arraysAfter _ _).trans hfollows.capacity.symm
  have hsize : n.draft.children.size = addresses.length := hfollows.size.trans hcount.symm
  obtain ⟨more, ht, hf⟩ :=
    filled_growth ht hl hcapacity hsize hf hgrowth (Heap.disjoint_of_perform hplace hd)
  -- What is told of the arrays is the same for every child.
  have hgrown := hl.grow hfollows hgrowth n.draft.close
  obtain ⟨array, rest, r, harrays, hr⟩ := hgrown.exists_array (Nat.succ_ne_zero _)
  have hnext : n.nextArrays h.handles.size = array :: rest := harrays
  rw [hnext] at hf ⊢
  obtain ⟨elements, hknown, -⟩ := hf array rfl
  have hroom : addresses.length < elements.length := by
    rw [ht.length_of_slice hr hknown, hcount]
    exact le_slotsAfter _ _
  have ht' := ht.perform hplace hd
  rw [place, hnext] at ht'
  simp only [List.head?_cons, Option.toList_some, List.map_cons, List.map_nil, List.foldl_cons,
    List.foldl_nil, Contents.record, hknown, hsize] at ht'
  exact ⟨more, array, _, ht', List.mem_cons_self, hf.push hknown hroom address⟩

end StoredNode

namespace StoredForest

open Forest (Command makings appendedTo)

variable {a : Arena} {s after : StoredForest} {calls : List Command} {c : Command} {i : Nat}
variable {known : List Contents} {n : StoredNode}

/-- What is known of the memory includes the addresses of all nodes that were appended. -/
structure Holds (calls : List Command) (s : StoredForest) (known : List Contents) : Prop where
  tracks : s.heap.Tracks known
  filled : ∀ (i : Nat) (n : StoredNode), s.nodes[i]? = some n →
    Filled known n.arrays ((appendedTo i calls).map s.address)

theorem address_eq {x : Nat} (h : s.Follows a calls) (hkeeps : s.Keeps after)
    (hn : s.nodes[x]? = some n) : after.address x = s.address x := by
  obtain ⟨m, -, -, ⟨r, hr, -⟩, -⟩ := h.node hn
  obtain ⟨n', hn', hhandle⟩ := hkeeps.node x n hn
  simp only [address, hn, hn', Option.bind_some, hhandle, hr, hkeeps.heap _ _ hr]

theorem map_address (h : s.Follows a calls) (hkeeps : s.Keeps after) (i : Nat) :
    (appendedTo i calls).map after.address = (appendedTo i calls).map s.address := by
  refine List.map_congr_left fun x hx => ?_
  exact address_eq h hkeeps (Array.getElem?_eq_getElem (h.lt_nodes_size hx))

namespace Holds

theorem make {m : Making} (hs : s.Follows a calls) (hk : s.Holds calls known)
    (hc : c.Applies s.nodes.size) (hm : c.making? = some m) (hrun : s.run c = .ok after)
    (hd : after.heap.arena.chain.Pairwise Block.Disjoint) :
    ∃ known', after.Holds (calls ++ [c]) known' := by
  obtain ⟨texts, h₀, d, htexts, -, hadd⟩ := make_cases hm hrun
  obtain ⟨hp, hnodes⟩ := add_eq_ok hadd
  have hmakes : ∀ c ∈ texts.map Heap.Command.text ++ (d.slots ++ [Heap.Command.allocate 48 8]),
      c.Makes := by
    simp only [List.forall_mem_append, List.forall_mem_map, List.forall_mem_singleton]
    exact ⟨fun _ _ => trivial, d.makes_slots, trivial⟩
  have hall := Heap.perform_append_eq_ok.mpr ⟨h₀, htexts, hp⟩
  obtain ⟨more, ht⟩ := hk.tracks.perform_makes hall hmakes hd
  refine ⟨known ++ more, ht, fun i n' hn' => ?_⟩
  obtain ⟨m', -, -, hl⟩ := (hs.run hc hrun).node hn'
  rw [Forest.appendedTo_of_make hm, map_address hs (keeps_make hm hrun)]
  rw [hnodes] at hn'
  rcases getElem?_push_cases hn' with ⟨rfl, -⟩ | ⟨-, hn'⟩
  · rw [hs.forest.follows.appendedTo_eq_nil s.size_nodes_forest.le]
    exact filled_nil ht hl
  · exact (hk.filled i n' hn').append more

theorem append {p x : Nat} (hs : s.Follows a calls) (hk : s.Holds calls known)
    (hc : (Command.append p x).Applies s.nodes.size) (hrun : s.append p x = .ok after)
    (hd : after.heap.arena.chain.Pairwise Block.Disjoint) :
    ∃ known', after.Holds (calls ++ [.append p x]) known' := by
  obtain ⟨n, hn⟩ : ∃ n, s.nodes[p]? = some n := ⟨_, Array.getElem?_eq_getElem hc.1⟩
  obtain ⟨e, he⟩ : ∃ e, s.nodes[x]? = some e := ⟨_, Array.getElem?_eq_getElem hc.2⟩
  obtain ⟨m, hm, hfollows, hl⟩ := hs.node hn
  obtain ⟨mid, hgrowth, hplace, hnodes⟩ := append_eq_ok hn he hrun
  have hkeeps := keeps_append hn he hrun
  have hafter := hs.append hc hrun
  obtain ⟨more, array, contents, ht, harray, hf⟩ := StoredNode.filled_push hk.tracks hl hfollows
    (hk.filled p n hn) (List.length_map ..) hgrowth hplace hd
  refine ⟨_, ht, fun i n' hn' => ?_⟩
  rw [Forest.appendedTo_of_append, List.map_append, map_address hs hkeeps]
  have hi := hn'
  rw [hnodes] at hi
  rcases getElem?_set_cases hi with ⟨rfl, rfl⟩ | ⟨hne, hold⟩
  · rw [if_pos rfl, List.map_cons, List.map_nil, address_eq hs hkeeps he]
    exact hf
  · rw [if_neg hne.symm, List.map_nil, List.append_nil]
    refine ((hk.filled i n' hold).append more).set_ne fun hmem => ?_
    have hnew : after.nodes[p]? = some (n.push s.heap.handles.size e.draft.close) := by
      rw [hnodes, Array.getElem?_setIfInBounds, if_pos rfl, if_pos hc.1]
    exact hafter.apart p i _ n' hne.symm hnew hn' (List.mem_cons_of_mem _ harray)
      (List.mem_cons_of_mem _ hmem)

end Holds

theorem disjoint_of_run (hc : c.Applies s.nodes.size) (hrun : s.run c = .ok after)
    (hd : after.heap.arena.chain.Pairwise Block.Disjoint) :
    s.heap.arena.chain.Pairwise Block.Disjoint := by
  have hmake {m : Making} (hm : c.making? = some m) :
      s.heap.arena.chain.Pairwise Block.Disjoint := by
    obtain ⟨texts, h₀, d, htexts, -, hadd⟩ := make_cases hm hrun
    exact Heap.disjoint_of_perform htexts (Heap.disjoint_of_perform (add_eq_ok hadd).1 hd)
  cases c with
  | append p x =>
    have hn := Array.getElem?_eq_getElem hc.1
    have he := Array.getElem?_eq_getElem hc.2
    obtain ⟨mid, hgrowth, hplace, -⟩ := append_eq_ok hn he hrun
    exact Heap.disjoint_of_perform hgrowth (Heap.disjoint_of_perform hplace hd)
  | _ => exact hmake rfl

/-- In blocks that are disjoint the addresses of all nodes that were appended are known. -/
def Shown (calls : List Command) (s : StoredForest) : Prop :=
  s.heap.arena.chain.Pairwise Block.Disjoint → ∃ known, s.Holds calls known

theorem shown_empty (a : Arena) : (empty a).Shown [] := fun _ =>
  ⟨[], Heap.tracks_empty a, by simp [empty]⟩

theorem Shown.run (hk : s.Shown calls) (hs : s.Follows a calls) (hc : c.Applies s.nodes.size)
    (hrun : s.run c = .ok after) : after.Shown (calls ++ [c]) := by
  intro hd
  obtain ⟨known, hknown⟩ := hk (disjoint_of_run hc hrun hd)
  cases c with
  | append p x => exact hknown.append hs hc hrun hd
  | _ => exact hknown.make hs hc rfl hrun hd

theorem exists_region (hs : s.Follows a calls) (hn : s.nodes[i]? = some n) :
    ∃ r, s.heap.handles[n.handle]? = some (.raw r) ∧ s.address i = r.address ∧ r.size = 48 ∧
      r.address < addressSpace := by
  obtain ⟨m, -, -, ⟨r, hr, hsize, hlt⟩, -⟩ := hs.node hn
  refine ⟨r, hr, ?_, hsize, hlt⟩
  simp only [address, hn, Option.bind_some, hr]
  rfl

theorem Holds.addresses_eq (hk : s.Holds calls known) (hs : s.Follows a calls)
    (hn : s.nodes[i]? = some n) : s.addresses n = (appendedTo i calls).map s.address := by
  obtain ⟨m, -, hfollows, hl⟩ := hs.node hn
  by_cases hnone : (appendedTo i calls).length = 0
  · rw [addresses, List.eq_nil_of_length_eq_zero hnone, hfollows.size, hnone]
    split <;> simp [Heap.numbers]
  · obtain ⟨array, rest, r, harrays, hr⟩ := hl.exists_array hnone
    obtain ⟨elements, hknown, htake⟩ := hk.filled i n hn array (by rw [harrays]; rfl)
    have hholds : s.heap.memory.Holds r (.slice slot elements) :=
      (hk.tracks.behind array _ _ hr hknown).2
    have haddresses : s.addresses n = s.heap.numbers r slot.width (appendedTo i calls).length := by
      simp only [addresses, harrays, List.head?_cons, Option.bind_some, hr, hfollows.size]
      rfl
    rw [haddresses]
    refine List.ext_getElem (by simp [Heap.numbers]) fun k hk₁ hk₂ => ?_
    have helement : elements[k]? = some ((appendedTo i calls).map s.address)[k] := by
      rw [← List.getElem?_eq_getElem hk₂, ← htake, List.getElem?_take_of_lt hk₂]
    have hlength : k < (appendedTo i calls).length := by rwa [List.length_map] at hk₂
    have hx : (appendedTo i calls)[k] < s.nodes.size :=
      hs.lt_nodes_size (List.getElem_mem hlength)
    obtain ⟨r', -, haddress, -, hlt⟩ := exists_region hs (Array.getElem?_eq_getElem hx)
    simp only [Heap.numbers, List.getElem_map, List.getElem_range] at helement ⊢
    rw [Heap.number_of_holds hholds helement, haddress]
    exact Nat.mod_eq_of_lt hlt

/-- Different nodes have different addresses. -/
theorem Holds.address_ne {j : Nat} {n' : StoredNode} (hk : s.Holds calls known)
    (hs : s.Follows a calls) (hn : s.nodes[i]? = some n) (hn' : s.nodes[j]? = some n')
    (hij : i ≠ j) : s.address i ≠ s.address j := by
  obtain ⟨r, hr, haddress, hsize, -⟩ := exists_region hs hn
  obtain ⟨r', hr', haddress', hsize', -⟩ := exists_region hs hn'
  have hne : n.handle ≠ n'.handle := fun heq =>
    hs.apart i j n n' hij hn hn' List.mem_cons_self (heq ▸ List.mem_cons_self)
  have happart : r.Disjoint r' := hk.tracks.apart _ _ _ _ hne hr hr'
  unfold Region.Disjoint at happart
  omega

end StoredForest

end MiniC
