import MiniC.Proofs.Parsing.Layout
import MiniC.Proofs.Runs.Nodes
import MiniC.Proofs.Syntax.Firsts
import MiniC.Proofs.Tree.Growth

namespace MiniC

/-- All arrays of children have the sizes that their kinds and numbers of children tell. -/
inductive Node.Regular : Node → Prop where
  | intro {n : Node} : n.capacity = slotsAfter n.kind.wanted n.children.length →
      (∀ c ∈ n.children, Regular c) → Regular n

structure Draft.Regular (kind : NodeKind) (d : Draft) : Prop where
  kind_eq : d.kind = kind
  capacity : d.capacity = slotsAfter kind.wanted d.children.size
  children : ∀ c ∈ d.children.toList, c.Regular

namespace Draft.Regular

variable {kind : NodeKind} {d : Draft} {n : Node}

theorem empty (kind : NodeKind) (line : Nat) : (Draft.empty kind line kind.wanted).Regular kind :=
  ⟨rfl, rfl, by simp [Draft.empty]⟩

theorem push (h : d.Regular kind) (hn : n.Regular) : (d.push n).Regular kind := by
  refine ⟨h.kind_eq, ?_, fun c hc => ?_⟩
  · simp only [Draft.push, Draft.nextCapacity, Draft.isFull, Array.size_push, slotsAfter,
      h.capacity, beq_iff_eq]
  · rw [Draft.toList_children_push] at hc
    rcases List.mem_append.mp hc with hc | hc
    · exact h.children c hc
    · rwa [List.mem_singleton.mp hc]

theorem close (h : d.Regular kind) : d.close.Regular := by
  refine .intro ?_ h.children
  simp only [Draft.close, h.kind_eq, h.capacity, Array.length_toList]

theorem leaf (kind : TokenKind) (line : Nat) (text? : Option StoredText) :
    (Draft.leaf (.token kind) line text?).close.Regular :=
  .intro rfl (by simp [Draft.leaf, Draft.close])

end Draft.Regular

theorem Node.Regular.toCast {n : Node} (h : n.Regular) (hk : n.kind = .type) :
    n.toCast.Regular := by
  obtain ⟨hcapacity, hchildren⟩ := h
  rw [hk] at hcapacity
  exact .intro hcapacity hchildren

/-- Every tree of a parse has arrays of children of the sizes that its kinds and numbers tell. -/
def NodeInvariant.regular (limit : Option Nat) : NodeInvariant where
  limit := limit
  upTo _ := True
  node := Node.Regular
  draft := Draft.Regular
  upTo_of_trail _ _ := trivial
  leaf _ _ := Draft.Regular.leaf _ _ _
  empty := .empty
  push := .push
  close := Draft.Regular.close
  kind_eq h := h.kind_eq
  toCast := .toCast

namespace Parser

variable {limit : Option Nat} {s t : State} {n : Node}

theorem regular_of_translationUnit (h : translationUnit limit s = ⟨.matched n, t⟩) : n.Regular :=
  NodeInvariant.yields_translationUnit (M := .regular limit) s n t h trivial

theorem regular_of_variableDeclaration (h : variableDeclaration limit s = ⟨.matched n, t⟩) :
    n.Regular :=
  NodeInvariant.yields_variableDeclaration (M := .regular limit) s n t h trivial

theorem regular_of_variableDefinition (h : variableDefinition limit s = ⟨.matched n, t⟩) :
    n.Regular :=
  NodeInvariant.yields_variableDefinition (M := .regular limit) s n t h trivial

end Parser

namespace Node

theorem length_lines (n : Node) : n.lines.length = n.shape.labels.length := by
  rw [← n.lines_rows, ← n.labels_rows, List.length_map, List.length_map]

theorem length_flatMap_lines {ns ns' : List Node} (h : ns.map shape = ns'.map shape) :
    (ns.flatMap lines).length = (ns'.flatMap lines).length := by
  have hlabels (ns : List Node) : (ns.flatMap lines).length =
      ((ns.map shape).flatMap Shape.labels).length := by
    induction ns with
    | nil => rfl
    | cons n ns ih => simp [ih, length_lines]
  rw [hlabels, hlabels, h]

variable {line : Nat → Nat → Prop}

mutual

/-- Trees of the same shape differ in their lines only, if their arrays have the regular sizes. -/
theorem like_of_shape : ∀ {n n' : Node}, n.shape = n'.shape → List.Forall₂ line n.lines n'.lines →
    n.Regular → n'.Regular → n.Like line (SameText True) n'
  | ⟨kind, l, x, capacity, ns⟩, ⟨kind', l', x', capacity', ns'⟩, hs, hl, hn, hn' => by
    obtain ⟨hcapacity, hns⟩ := hn
    obtain ⟨hcapacity', hns'⟩ := hn'
    obtain ⟨rfl, hx, hshapes⟩ := Shape.mk.inj hs
    obtain ⟨hline, hlines⟩ := List.forall₂_cons.mp hl
    have hlength : ns.length = ns'.length := by
      rw [shapes_eq_map, shapes_eq_map] at hshapes
      simpa using congrArg List.length hshapes
    simp only at hcapacity hcapacity'
    rw [← hlength] at hcapacity'
    exact ⟨rfl, hline, fun _ => hx, hcapacity.trans hcapacity'.symm,
      likeAll_of_shapes hshapes hlines hns hns'⟩

theorem likeAll_of_shapes : ∀ {ns ns' : List Node}, shapes ns = shapes ns' →
    List.Forall₂ line (linesAll ns) (linesAll ns') → (∀ n ∈ ns, n.Regular) →
    (∀ n ∈ ns', n.Regular) → LikeAll line (SameText True) ns ns'
  | [], [], _, _, _, _ => trivial
  | n :: ns, n' :: ns', hs, hl, hn, hn' => by
    obtain ⟨hshape, hshapes⟩ := List.cons.inj hs
    have hlength : n.lines.length = n'.lines.length := by
      rw [length_lines, length_lines, hshape]
    rw [linesAll, linesAll] at hl
    have hfirst := List.forall₂_take_append _ _ _ hl
    have hrest := List.forall₂_drop_append _ _ _ hl
    rw [← hlength, List.take_left] at hfirst
    rw [← hlength, List.drop_left] at hrest
    exact ⟨like_of_shape hshape hfirst (hn n List.mem_cons_self) (hn' n' List.mem_cons_self),
      likeAll_of_shapes hshapes hrest (fun m hm => hn m (List.mem_cons_of_mem _ hm))
        fun m hm => hn' m (List.mem_cons_of_mem _ hm)⟩

end

theorem forall₂_like_of_shape {ns ns' : List Node} (hs : ns.map shape = ns'.map shape)
    (hl : List.Forall₂ line (ns.flatMap lines) (ns'.flatMap lines)) (hn : ∀ n ∈ ns, n.Regular)
    (hn' : ∀ n ∈ ns', n.Regular) : List.Forall₂ (Node.Like line (SameText True)) ns ns' := by
  rw [← shapes_eq_map, ← shapes_eq_map] at hs
  rw [← linesAll_eq_flatMap, ← linesAll_eq_flatMap] at hl
  exact likeAll_iff.mp (likeAll_of_shapes hs hl hn hn')

end Node

end MiniC
