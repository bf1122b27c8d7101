import MiniC.Proofs.Tree.Slots

namespace MiniC

namespace StoredForest

open Forest (Command makings appendedTo Orderly)

variable {a : Arena} {s after : StoredForest} {calls : List Command} {c : Command} {i : Nat}
variable {n : StoredNode}

theorem run_of_not_applies (hc : ¬c.Applies s.nodes.size) : s.run c = .ok s := by
  cases c with
  | append p x =>
    simp only [run, append]
    split
    · next hp hx =>
      have hp := (Array.getElem?_eq_some_iff.mp hp).1
      have hx := (Array.getElem?_eq_some_iff.mp hx).1
      exact absurd ⟨hp, hx⟩ hc
    · rfl
  | _ => exact absurd trivial hc

theorem follows_attemptAll (hs : s.Follows a calls) (hk : s.Shown calls) (cs : List Command) :
    let all := calls ++ s.forest.carriedOut cs
    (s.attemptAll cs).Follows a all ∧ (s.attemptAll cs).Shown all ∧
      (s.attemptAll cs).forest = s.forest.attemptAll cs := by
  induction cs generalizing s calls with
  | nil => simpa [attemptAll, Forest.carriedOut, Forest.attemptAll] using ⟨hs, hk⟩
  | cons c cs ih =>
    have hforest := hs.forest_run c
    simp only [attemptAll, attempt, Forest.attemptAll, Forest.attempt, Forest.carriedOut,
      ← hforest]
    cases hrun : s.run c with
    | error fault => exact ih hs hk
    | ok after =>
      simp only [Except.map, size_nodes_forest]
      split
      · next hc =>
        have hall := ih (hs.run hc hrun) (hk.run hs hc hrun)
        rwa [List.append_assoc] at hall
      · next hc =>
        obtain rfl := Except.ok.inj ((run_of_not_applies hc).symm.trans hrun)
        exact ih hs hk

theorem Follows.slotsMade_eq {m : Making} (hs : s.Follows a calls) (hn : s.nodes[i]? = some n)
    (hm : (makings calls)[i]? = some m) :
    s.slotsMade n = (arraysAfter m.wanted (appendedTo i calls).length).sum := by
  have harrays := (hs.laid i n m hn hm).arrays
  refine congrArg List.sum (List.forall₂_eq_eq_eq ▸ List.forall₂_map_left_iff.mpr ?_)
  refine harrays.imp fun array size hsize => ?_
  obtain ⟨r, hr⟩ := hsize
  rw [hr]

/-- After any calls each node has what it was made with and the children that were appended to it,
in that order, with their addresses in its slots and arrays of the sizes that these tell. -/
theorem child_lists_exact (a : Arena) (cs : List Command) :
    let f := (Forest.empty a).attemptAll cs
    let calls := (Forest.empty a).carriedOut cs
    let s := (empty a).attemptAll cs
    s.forest = f ∧ f.nodes.size = (makings calls).length ∧
      ∀ i n m, s.nodes[i]? = some n → (makings calls)[i]? = some m →
        let node := n.draft.close
        let children := appendedTo i calls
        let first := slotCount m.wanted
        (node.kind = m.kind ∧ node.line = m.line ∧ node.text?.map (·.text) = m.text?) ∧
          node.children.length = children.length ∧
          (node.childKinds.map some = children.map fun x => (makings calls)[x]?.map (·.kind)) ∧
          (Orderly calls →
            (node.children.map some = children.map fun x => f.nodes[x]?.map Draft.close) ∧
              ∀ k, node.child? k = children[k]?.bind fun x => f.nodes[x]?.map Draft.close) ∧
          (s.heap.arena.chain.Pairwise Block.Disjoint →
            s.addresses n = children.map s.address ∧
              ∀ j < s.nodes.size, j ≠ i → s.address j ≠ s.address i) ∧
          (if m.wanted = 0 then first = 0 else IsLeast (arraySizes m.wanted) first) ∧
          (if children.length ≤ first then node.capacity = first
            else IsLeast (arraySizes children.length) node.capacity) ∧
          (node.capacity = 0 ∨ (∃ k, node.capacity = 2 ^ k) ∧ 2 ≤ node.capacity) ∧
          children.length ≤ node.capacity ∧
          s.slotsMade n =
            if first = 0 then 2 * node.capacity - 2 else 2 * node.capacity - first := by
  intro f calls s
  -- nodes and memory keep their invariants from the empty forest on
  obtain ⟨hs, hk, hforest⟩ := follows_attemptAll (Follows.empty a) (shown_empty a) cs
  rw [forest_empty] at hs hk hforest
  change s.Follows a calls at hs
  change s.Shown calls at hk
  change s.forest = f at hforest
  have hreached := hs.forest
  rw [hforest] at hreached
  refine ⟨hforest, hreached.follows.size, fun i n m hn hm => ?_⟩
  have hd : f.nodes[i]? = some n.draft := by simp [← hforest, forest, hn]
  obtain ⟨m', hm', hfollows, -⟩ := hs.node hn
  obtain rfl := Option.some.inj (hm'.symm.trans hm)
  have hcapacity : n.draft.close.capacity = slotsAfter m'.wanted (appendedTo i calls).length :=
    hfollows.capacity
  intro node children first
  refine ⟨⟨hfollows.kind, hfollows.line, hfollows.text⟩, ?_, hreached.childKinds hd, fun ho => ?_,
    fun hdisjoint => ?_, ?_, ?_, ?_, ?_, ?_⟩
  · rw [← hfollows.size]
    exact Array.length_toList
  · have hlist := hreached.children ho hd
    refine ⟨hlist, fun k => ?_⟩
    have hchild := congrArg (fun l => l[k]?.bind id) hlist
    simp only [List.getElem?_map, Option.bind_map, Function.id_comp] at hchild
    rw [← hchild]
    exact (Option.bind_fun_some _).symm
  · -- only what is read back from the slots needs blocks that are disjoint
    obtain ⟨known, hknown⟩ := hk hdisjoint
    refine ⟨hknown.addresses_eq hs hn, fun j hj hne => ?_⟩
    exact hknown.address_ne hs (Array.getElem?_eq_getElem hj) hn hne
  · split
    · next hzero => exact slotCount_eq_zero_iff.mpr hzero
    · next hpos => exact isLeast_slotCount hpos
  · rw [hcapacity]
    split
    · next hle => exact slotsAfter_of_le hle
    · next hlt => exact isLeast_slotsAfter (Nat.lt_of_not_le hlt)
  · rw [hcapacity]
    exact (slotsAfter_eq_zero_or_mem _ _).imp_right fun h => ⟨h.1, h.2.1⟩
  · rw [hcapacity]
    exact le_slotsAfter _ _
  · rw [hcapacity, hs.slotsMade_eq hn hm', sum_arraysAfter]
    simp only [first, slotCount_eq_zero_iff]

/-- A node that was made for no children gets three, one of them twice; the first array is replaced
behind a node that was made in between. -/
theorem child_lists_exact_interleaved :
    let first := Arena.ofCapacity .packed 128
    let cs : List Command := [.alloc .statementList 1 0, .leaf (.token .ident) 2 (some "x"),
      .append 0 1, .alloc .type 3 3, .append 0 7, .append 0 2, .append 0 1]
    let f := (Forest.empty first).attemptAll cs
    let s := (empty first).attemptAll cs
    s.heap.arena.chain.Pairwise Block.Disjoint ∧ s.heap.arena.chain.length = 2 ∧
      ∃ n, s.nodes[0]? = some n ∧ n.draft.close.kind = .statementList ∧
        (n.draft.close.children.map some = [1, 2, 1].map fun x => f.nodes[x]?.map Draft.close) ∧
        s.addresses n = [1, 2, 1].map s.address ∧ s.address 1 ≠ s.address 0 ∧
        IsLeast (arraySizes 3) n.draft.close.capacity ∧
        s.slotsMade n = 2 * n.draft.close.capacity - 2 := by
  intro first cs f s
  have hdisjoint : s.heap.arena.chain.Pairwise Block.Disjoint := by decide +kernel
  have hcalls : (Forest.empty first).carriedOut cs =
      [.alloc .statementList 1 0, .leaf (.token .ident) 2 (some "x"), .append 0 1,
        .alloc .type 3 3, .append 0 2, .append 0 1] := by decide +kernel
  have hsize : 1 < s.nodes.size := by decide +kernel
  have hn : s.nodes[0]? = some s.nodes[0] := Array.getElem?_eq_getElem (by omega)
  obtain ⟨-, -, hnodes⟩ := child_lists_exact first cs
  rw [hcalls] at hnodes
  obtain ⟨⟨hkind, -⟩, -, -, hchildren, haddresses, -, hcapacity, -, -, hslots⟩ :=
    hnodes 0 _ ⟨.statementList, 1, none, 0⟩ hn rfl
  obtain ⟨hlist, -⟩ := hchildren (by decide)
  obtain ⟨hread, hother⟩ := haddresses hdisjoint
  exact ⟨hdisjoint, by decide +kernel, _, hn, hkind, hlist, hread, hother 1 hsize (by decide),
    hcapacity, hslots⟩

end StoredForest

end MiniC
