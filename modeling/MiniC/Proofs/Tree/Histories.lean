import MiniC.Proofs.Tree.Growth
import MiniC.Tree.Forest

namespace MiniC

section

variable {α : Type} {xs : Array α} {x y : α} {i j : Nat}

theorem getElem?_push_cases (h : (xs.push x)[i]? = some y) :
    i = xs.size ∧ y = x ∨ i < xs.size ∧ xs[i]? = some y := by
  rw [Array.getElem?_push] at h
  split at h
  · next hi => exact .inl ⟨hi, (Option.some.inj h).symm⟩
  · exact .inr ⟨(Array.getElem?_eq_some_iff.mp h).1, h⟩

theorem getElem?_set_cases (h : (xs.setIfInBounds j x)[i]? = some y) :
    i = j ∧ y = x ∨ i ≠ j ∧ xs[i]? = some y := by
  rw [Array.getElem?_setIfInBounds] at h
  split at h
  · next hj =>
    split at h
    · exact .inl ⟨hj.symm, (Option.some.inj h).symm⟩
    · simp at h
  · next hj => exact .inr ⟨Ne.symm hj, h⟩

end

/-- What a node is made from. -/
structure Making where
  kind : NodeKind
  line : Nat
  text? : Option String
  wanted : Nat
  deriving DecidableEq

namespace Forest

inductive Command where
  | alloc (kind : NodeKind) (line wanted : Nat)
  | leaf (kind : NodeKind) (line : Nat) (text? : Option String)
  | append (parent child : Nat)
  deriving DecidableEq

namespace Command

def making? : Command → Option Making
  | .alloc kind line wanted => some ⟨kind, line, none, wanted⟩
  | .leaf kind line text? => some ⟨kind, line, text?, 0⟩
  | .append _ _ => none

def childOf? (i : Nat) : Command → Option Nat
  | .append parent child => if parent = i then some child else none
  | _ => none

/-- The call is for nodes that there are when there are `count`. -/
def Applies (count : Nat) : Command → Prop
  | .append parent child => parent < count ∧ child < count
  | _ => True

instance (count : Nat) (c : Command) : Decidable (c.Applies count) :=
  match c with
  | .append parent child => inferInstanceAs (Decidable (parent < count ∧ child < count))
  | .alloc _ _ _ | .leaf _ _ _ => inferInstanceAs (Decidable True)

/-- The second call appends nothing to the node that the first one appends. -/
def finishes : Command → Command → Bool
  | .append _ child, .append parent _ => parent != child
  | _, _ => true

end Command

def run (f : Forest) : Command → Except Fault Forest
  | .alloc kind line wanted => f.alloc kind line wanted
  | .leaf kind line text? => f.leaf kind line text?
  | .append parent child => f.append parent child

def attempt (f : Forest) (c : Command) : Forest :=
  match f.run c with
  | .ok after => after
  | .error _ => f

def attemptAll (f : Forest) : List Command → Forest
  | [] => f
  | c :: cs => (f.attempt c).attemptAll cs

/-- Those of the calls that are carried out: they are not refused and for nodes that there are. -/
def carriedOut (f : Forest) : List Command → List Command
  | [] => []
  | c :: cs =>
    match f.run c with
    | .ok after =>
      if c.Applies f.nodes.size then c :: after.carriedOut cs else after.carriedOut cs
    | .error _ => f.carriedOut cs

/-- What the nodes were made from, in the order of their numbers. -/
def makings (calls : List Command) : List Making := calls.filterMap Command.making?

/-- The nodes that were appended to node `i`, in the order of the calls. -/
def appendedTo (i : Nat) (calls : List Command) : List Nat := calls.filterMap (Command.childOf? i)

/-- A node that was appended is finished: neither to itself nor later is anything appended to it. -/
def Orderly (calls : List Command) : Prop :=
  calls.Pairwise (fun c c' => c.finishes c') ∧ ∀ c ∈ calls, c.finishes c

instance (calls : List Command) : Decidable (Orderly calls) := inferInstanceAs (Decidable (_ ∧ _))

/-- The calls, all of them carried out, make the forest of an empty one. -/
inductive Reached (a : Arena) : List Command → Forest → Prop
  | start : Reached a [] (empty a)
  | call {calls : List Command} {f after : Forest} {c : Command} : Reached a calls f →
      c.Applies f.nodes.size → f.run c = .ok after → Reached a (calls ++ [c]) after

end Forest

/-- What a node under construction is, told from what it was made from and the number of its
children. -/
structure Draft.Follows (m : Making) (count : Nat) (d : Draft) : Prop where
  kind : d.kind = m.kind
  line : d.line = m.line
  text : d.text?.map (·.text) = m.text?
  size : d.children.size = count
  capacity : d.capacity = slotsAfter m.wanted count

theorem Draft.Follows.push {m : Making} {count : Nat} {d : Draft} (h : d.Follows m count)
    (child : Node) : (d.push child).Follows m (count + 1) := by
  refine ⟨h.kind, h.line, h.text, ?_, ?_⟩
  · simp only [Draft.push, Array.size_push, h.size]
  · simp only [Draft.push, Draft.nextCapacity, Draft.isFull, h.size, h.capacity, beq_iff_eq]
    rfl

namespace Forest

variable {a : Arena} {f after : Forest} {calls : List Command} {c : Command} {i : Nat}

theorem makings_concat (calls : List Command) (c : Command) :
    makings (calls ++ [c]) = makings calls ++ c.making?.toList := by
  rw [makings, List.filterMap_append]
  cases hc : c.making? <;> simp [makings, hc]

theorem appendedTo_concat (i : Nat) (calls : List Command) (c : Command) :
    appendedTo i (calls ++ [c]) = appendedTo i calls ++ (c.childOf? i).toList := by
  rw [appendedTo, List.filterMap_append]
  cases hc : c.childOf? i <;> simp [appendedTo, hc]

theorem childOf?_eq_some_iff {child : Nat} : c.childOf? i = some child ↔ c = .append i child := by
  cases c <;> simp [Command.childOf?]

theorem mem_appendedTo {child : Nat} :
    child ∈ appendedTo i calls ↔ .append i child ∈ calls := by
  simp only [appendedTo, List.mem_filterMap, childOf?_eq_some_iff, exists_eq_right]

theorem add_cases {arena : Arena} {d : Draft} (h : f.add arena d = .ok after) :
    after.nodes = f.nodes.push d := by
  unfold add at h
  cases harena : arena.allocateAll d.requests with
  | error fault => simp [harena, Except.map] at h
  | ok b =>
    obtain rfl : _ = after := by simpa [harena, Except.map] using h
    rfl

theorem leaf_cases {kind : NodeKind} {line : Nat} {text? : Option String}
    (h : f.leaf kind line text? = .ok after) :
    ∃ stored? : Option StoredText, stored?.map (·.text) = text? ∧
      after.nodes = f.nodes.push (.leaf kind line stored?) := by
  cases text? with
  | none => exact ⟨none, rfl, add_cases h⟩
  | some text =>
    simp only [leaf, Arena.store?] at h
    cases hstore : f.arena.allocate (.text text) with
    | error fault => simp [hstore, bind, Except.bind] at h
    | ok granted =>
      simp only [hstore, bind, Except.bind] at h
      exact ⟨some ⟨text, granted.1⟩, rfl, add_cases h⟩

/-- A call that is carried out makes a node, or gives one node a child and leaves the others. -/
theorem run_cases (h : f.run c = .ok after) (hc : c.Applies f.nodes.size) :
    (∃ (m : Making) (d : Draft), c.making? = some m ∧ d.Follows m 0 ∧ after.nodes = f.nodes.push d) ∨
      ∃ p x d e, c = .append p x ∧ f.nodes[p]? = some d ∧ f.nodes[x]? = some e ∧
        after.nodes = f.nodes.setIfInBounds p (d.push e.close) := by
  cases c with
  | alloc kind line wanted =>
    exact .inl ⟨_, _, rfl, ⟨rfl, rfl, rfl, rfl, rfl⟩, add_cases h⟩
  | leaf kind line text? =>
    obtain ⟨stored?, htext, hnodes⟩ := leaf_cases h
    exact .inl ⟨_, _, rfl, ⟨rfl, rfl, htext, rfl, rfl⟩, hnodes⟩
  | append p x =>
    obtain ⟨hp, hx⟩ := hc
    have hd := Array.getElem?_eq_getElem hp
    have he := Array.getElem?_eq_getElem hx
    refine .inr ⟨p, x, _, _, rfl, hd, he, ?_⟩
    simp only [run, append, hd, he] at h
    cases harena : f.arena.allocateAll f.nodes[p].growth with
    | error fault => simp [harena, Except.map] at h
    | ok b =>
      obtain rfl : _ = after := by simpa [harena, Except.map] using h
      rfl

structure Follows (calls : List Command) (f : Forest) : Prop where
  size : f.nodes.size = (makings calls).length
  node : ∀ (i : Nat) (d : Draft), f.nodes[i]? = some d →
    ∃ m, (makings calls)[i]? = some m ∧ d.Follows m (appendedTo i calls).length
  applies : ∀ c ∈ calls, c.Applies f.nodes.size

theorem Follows.appendedTo_eq_nil (h : f.Follows calls) (hi : f.nodes.size ≤ i) :
    appendedTo i calls = [] := by
  refine List.eq_nil_iff_forall_not_mem.mpr fun child hchild => ?_
  have happlies := h.applies _ (mem_appendedTo.mp hchild)
  exact absurd happlies.1 (by omega)

theorem Command.Applies.mono {count count' : Nat} (h : c.Applies count) (hle : count ≤ count') :
    c.Applies count' := by
  cases c with
  | append p x => exact ⟨h.1.trans_le hle, h.2.trans_le hle⟩
  | _ => trivial

theorem makings_of_make {m : Making} (hm : c.making? = some m) :
    makings (calls ++ [c]) = makings calls ++ [m] := by
  rw [makings_concat, hm]
  rfl

theorem appendedTo_of_make {m : Making} (hm : c.making? = some m) :
    appendedTo i (calls ++ [c]) = appendedTo i calls := by
  have hchild : c.childOf? i = none := by cases c <;> simp_all [Command.making?, Command.childOf?]
  rw [appendedTo_concat, hchild]
  exact List.append_nil _

theorem makings_of_append (p x : Nat) : makings (calls ++ [.append p x]) = makings calls := by
  rw [makings_concat]
  exact List.append_nil _

theorem appendedTo_of_append (p x : Nat) :
    appendedTo i (calls ++ [.append p x]) = appendedTo i calls ++ (if p = i then [x] else []) := by
  rw [appendedTo_concat, Command.childOf?]
  split <;> rfl

theorem Follows.make {m : Making} {d : Draft} (h : f.Follows calls) (hc : c.Applies f.nodes.size)
    (hm : c.making? = some m) (hd : d.Follows m 0) (hnodes : after.nodes = f.nodes.push d) :
    after.Follows (calls ++ [c]) := by
  refine ⟨?_, fun i e he => ?_, fun c' hc' => ?_⟩
  · rw [hnodes, Array.size_push, h.size, makings_of_make hm, List.length_append]
    rfl
  · rw [appendedTo_of_make hm, makings_of_make hm]
    rw [hnodes] at he
    rcases getElem?_push_cases he with ⟨rfl, rfl⟩ | ⟨-, he⟩
    · rw [h.appendedTo_eq_nil (Nat.le_refl _), h.size]
      exact ⟨m, List.getElem?_concat_length, hd⟩
    · obtain ⟨m', hm', hfollows⟩ := h.node i e he
      obtain ⟨hi, -⟩ := List.getElem?_eq_some_iff.mp hm'
      exact ⟨m', (List.getElem?_append_left hi).trans hm', hfollows⟩
  · have hle : f.nodes.size ≤ after.nodes.size := by
      rw [hnodes, Array.size_push]
      exact Nat.le_succ _
    rcases List.mem_append.mp hc' with hc' | hc'
    · exact (h.applies c' hc').mono hle
    · obtain rfl := List.mem_singleton.mp hc'
      exact hc.mono hle

theorem Follows.append {p x : Nat} {d : Draft} {child : Node} (h : f.Follows calls)
    (hc : (Command.append p x).Applies f.nodes.size) (hd : f.nodes[p]? = some d)
    (hnodes : after.nodes = f.nodes.setIfInBounds p (d.push child)) :
    after.Follows (calls ++ [.append p x]) := by
  have hsize : after.nodes.size = f.nodes.size := by rw [hnodes, Array.size_setIfInBounds]
  refine ⟨?_, fun i e he => ?_, fun c' hc' => ?_⟩
  · rw [hsize, h.size, makings_of_append]
  · rw [makings_of_append, appendedTo_of_append]
    rw [hnodes] at he
    -- the parent has one child more, the others are as they were
    rcases getElem?_set_cases he with ⟨rfl, rfl⟩ | ⟨hi, he⟩
    · obtain ⟨m, hm, hfollows⟩ := h.node i d hd
      rw [if_pos rfl, List.length_append]
      exact ⟨m, hm, hfollows.push child⟩
    · rw [if_neg hi.symm, List.append_nil]
      exact h.node i e he
  · rw [hsize]
    rcases List.mem_append.mp hc' with hc' | hc'
    · exact h.applies c' hc'
    · obtain rfl := List.mem_singleton.mp hc'
      exact hc

theorem Reached.follows (h : Reached a calls f) : f.Follows calls := by
  induction h with
  | start => refine ⟨rfl, ?_, ?_⟩ <;> simp [empty]
  | @call calls f after c hreached hc hrun ih =>
    rcases run_cases hrun hc with ⟨m, d, hm, hd, hnodes⟩ | ⟨p, x, d, e, rfl, hd, he, hnodes⟩
    · exact ih.make hc hm hd hnodes
    · exact ih.append hc hd hnodes

theorem Follows.lt_size {x : Nat} (h : f.Follows calls) (hx : x ∈ appendedTo i calls) :
    x < f.nodes.size := (h.applies _ (mem_appendedTo.mp hx)).2

/-- What is told of the appended nodes holds of the children after a call, if it did before, remains so
of all that were appended before, and holds of the one that is appended now. -/
theorem Follows.children_step {β : Type} {φ : Node → β} {ψ ψ' : Nat → β} (h : f.Follows calls)
    (hc : c.Applies f.nodes.size) (hrun : f.run c = .ok after)
    (hold : ∀ i d, f.nodes[i]? = some d → d.close.children.map φ = (appendedTo i calls).map ψ)
    (hkeep : ∀ i, ∀ x ∈ appendedTo i calls, ψ' x = ψ x)
    (hnew : ∀ p x e, c = .append p x → f.nodes[x]? = some e → φ e.close = ψ' x) {d : Draft}
    (hd : after.nodes[i]? = some d) :
    d.close.children.map φ = (appendedTo i (calls ++ [c])).map ψ' := by
  have hsame : ∀ i e, f.nodes[i]? = some e →
      e.close.children.map φ = (appendedTo i calls).map ψ' := fun i e he => by
    rw [hold i e he]
    exact List.map_congr_left fun x hx => (hkeep i x hx).symm
  rcases run_cases hrun hc with ⟨m, d₀, hm, hd₀, hnodes⟩ | ⟨p, x, d₀, e, rfl, hd₀, he, hnodes⟩
  · rw [appendedTo_of_make hm]
    rw [hnodes] at hd
    rcases getElem?_push_cases hd with ⟨rfl, rfl⟩ | ⟨-, hd⟩
    · have hempty : d.children = #[] := Array.eq_empty_of_size_eq_zero hd₀.size
      rw [h.appendedTo_eq_nil (Nat.le_refl _), Draft.close, hempty]
      rfl
    · exact hsame i d hd
  · rw [appendedTo_of_append]
    rw [hnodes] at hd
    rcases getElem?_set_cases hd with ⟨rfl, rfl⟩ | ⟨hi, hd⟩
    · have hlast := hnew i x e rfl he
      rw [if_pos rfl, List.map_append, ← hsame i d₀ hd₀]
      simp [Draft.close, Draft.push, ← hlast]
    · rw [if_neg hi.symm, List.append_nil]
      exact hsame i d hd

theorem Reached.childKinds {d : Draft} (h : Reached a calls f) (hd : f.nodes[i]? = some d) :
    d.close.childKinds.map some =
      (appendedTo i calls).map fun x => (makings calls)[x]?.map (·.kind) := by
  rw [Node.childKinds, List.map_map]
  induction h generalizing i d with
  | start => simp [empty] at hd
  | @call calls f after c hreached hc hrun ih =>
    have hf := hreached.follows
    refine hf.children_step hc hrun (fun i d hd => ih hd) (fun i x hx => ?_)
      (fun p x e hcall he => ?_) hd
    · rw [makings_concat, List.getElem?_append_left (hf.size ▸ hf.lt_size hx)]
    · obtain ⟨m, hm, he⟩ := hf.node x e he
      rw [hcall, makings_of_append, hm]
      exact congrArg some he.kind

/-- A finished node stays as it is. -/
theorem getElem?_nodes_of_finishes {p x : Nat} (hrun : f.run c = .ok after)
    (hc : c.Applies f.nodes.size) (hx : x < f.nodes.size)
    (hfinished : (Command.append p x).finishes c) : after.nodes[x]? = f.nodes[x]? := by
  rcases run_cases hrun hc with ⟨m, d, hm, hd, hnodes⟩ | ⟨q, y, d, e, rfl, hd, he, hnodes⟩
  · rw [hnodes, Array.getElem?_push, if_neg hx.ne]
  · have hq : q ≠ x := by simpa [Command.finishes] using hfinished
    rw [hnodes, Array.getElem?_setIfInBounds, if_neg hq]

/-- The children are the appended nodes, if these are finished. -/
theorem Reached.children {d : Draft} (h : Reached a calls f) (ho : Orderly calls)
    (hd : f.nodes[i]? = some d) :
    d.close.children.map some = (appendedTo i calls).map fun x => f.nodes[x]?.map Draft.close := by
  induction h generalizing i d with
  | start => simp [empty] at hd
  | @call calls f after c hreached hc hrun ih =>
    obtain ⟨hpairs, hself⟩ := ho
    obtain ⟨hbefore, -, hlater⟩ := List.pairwise_append.mp hpairs
    have horderly : Orderly calls :=
      ⟨hbefore, fun c' hc' => hself c' (List.mem_append_left _ hc')⟩
    have hf := hreached.follows
    refine hf.children_step hc hrun (fun i d hd => ih horderly hd) (fun i x hx => ?_)
      (fun p x e hcall he => ?_) hd
    · have hfinished := hlater _ (mem_appendedTo.mp hx) c List.mem_cons_self
      rw [getElem?_nodes_of_finishes hrun hc (hf.lt_size hx) hfinished]
    · have hfinished := hself c (List.mem_append_right _ List.mem_cons_self)
      subst hcall
      rw [getElem?_nodes_of_finishes hrun hc hc.2 hfinished, he]
      rfl

end Forest

end MiniC
