import MiniC.Parse.Unit
import Mathlib.Data.List.Forall2

namespace MiniC

variable (line : Nat → Nat → Prop) (text : Option StoredText → Option StoredText → Prop)

mutual

/-- The trees differ in their lines and texts only, and there as they are allowed to. -/
def Node.Like : Node → Node → Prop
  | ⟨kind, l, x, capacity, ns⟩, ⟨kind', l', x', capacity', ns'⟩ =>
    kind = kind' ∧ line l l' ∧ text x x' ∧ capacity = capacity' ∧ Node.LikeAll ns ns'

def Node.LikeAll : List Node → List Node → Prop
  | [], [] => True
  | n :: ns, n' :: ns' => n.Like n' ∧ Node.LikeAll ns ns'
  | _, _ => False

end

structure Draft.Like (d d' : Draft) : Prop where
  kind : d.kind = d'.kind
  children : List.Forall₂ (Node.Like line text) d.children.toList d'.children.toList
  capacity : d.capacity = d'.capacity
  line : line d.line d'.line
  text : text d.text? d'.text?

inductive ParseError.Like : ParseError → ParseError → Prop where
  | unsupported (construct : Construct) {l l' : Nat} : line l l' →
      Like (.unsupported construct l) (.unsupported construct l')
  | unrecognized (found : TokenKind) {l l' : Nat} : line l l' →
      Like (.unrecognized found l) (.unrecognized found l')
  | nestingTooDeep {l l' : Nat} : line l l' → Like (.nestingTooDeep l) (.nestingTooDeep l')

inductive Outcome.Like : Outcome Node → Outcome Node → Prop where
  | matched {n n' : Node} : n.Like line text n' → Like (.matched n) (.matched n')
  | mismatch : Like .mismatch .mismatch
  | fatal {e e' : ParseError} : e.Like line e' → Like (.fatal e) (.fatal e')

/-- What a parse notes down itself, up to its lines. -/
inductive Event.Like : Event → Event → Prop where
  | backtracked (rule : Rule) {l l' : Nat} : line l l' →
      Like (.backtracked rule l) (.backtracked rule l')
  | limitReached (rule : Rule) {l l' : Nat} : line l l' →
      Like (.limitReached rule l) (.limitReached rule l')
  | duplicateQualifier (found : TokenKind) {l l' : Nat} : line l l' →
      Like (.duplicateQualifier found l) (.duplicateQualifier found l')
  | unsupported (construct : Construct) {l l' : Nat} : line l l' →
      Like (.unsupported construct l) (.unsupported construct l')
  | unitParsed (declarations : Nat) {l l' : Nat} : line l l' →
      Like (.unitParsed declarations l) (.unitParsed declarations l')
  | unitRejected {e e' : ParseError} : e.Like line e' →
      Like (.unitRejected e) (.unitRejected e')

variable {line text}

theorem Node.likeAll_iff {ns ns' : List Node} :
    Node.LikeAll line text ns ns' ↔ List.Forall₂ (Node.Like line text) ns ns' := by
  induction ns generalizing ns' with
  | nil => cases ns' <;> simp [Node.LikeAll]
  | cons n ns ih => cases ns' <;> simp [Node.LikeAll, ih]

theorem Node.like_iff {n n' : Node} : n.Like line text n' ↔
    n.kind = n'.kind ∧ line n.line n'.line ∧ text n.text? n'.text? ∧ n.capacity = n'.capacity ∧
      List.Forall₂ (Node.Like line text) n.children n'.children := by
  rw [← Node.likeAll_iff]
  cases n
  cases n'
  rfl

mutual

theorem Node.Like.eq : ∀ {n n' : Node}, n.Like Eq Eq n' → n = n'
  | ⟨_, _, _, _, _⟩, ⟨_, _, _, _, _⟩, ⟨hk, hl, hx, hc, hns⟩ => by
    rw [hk, hl, hx, hc, Node.LikeAll.eq hns]

theorem Node.LikeAll.eq : ∀ {ns ns' : List Node}, Node.LikeAll Eq Eq ns ns' → ns = ns'
  | [], [], _ => rfl
  | _ :: _, _ :: _, ⟨hn, hns⟩ => by rw [hn.eq, hns.eq]

end

theorem ParseError.Like.eq {e e' : ParseError} (h : e.Like Eq e') : e = e' := by
  cases h <;> congr

theorem Event.Like.eq {e e' : Event} (h : e.Like Eq e') : e = e' := by
  cases h with
  | unitRejected h => rw [h.eq]
  | _ => congr

namespace Draft.Like

variable {d d' : Draft} {n n' : Node}

theorem empty (kind : NodeKind) {l l' : Nat} (wanted : Nat) (hl : line l l')
    (hx : text none none) :
    (Draft.empty kind l wanted).Like line text (Draft.empty kind l' wanted) :=
  ⟨rfl, .nil, rfl, hl, hx⟩

theorem leaf (kind : NodeKind) {l l' : Nat} {x x' : Option StoredText} (hl : line l l')
    (hx : text x x') : (Draft.leaf kind l x).Like line text (Draft.leaf kind l' x') :=
  ⟨rfl, .nil, rfl, hl, hx⟩

theorem size_children (h : d.Like line text d') : d.children.size = d'.children.size :=
  h.children.length_eq

theorem isFull (h : d.Like line text d') : d.isFull = d'.isFull := by
  unfold Draft.isFull
  rw [h.size_children, h.capacity]

theorem nextCapacity (h : d.Like line text d') : d.nextCapacity = d'.nextCapacity := by
  unfold Draft.nextCapacity
  rw [h.isFull, h.capacity]

theorem growth (h : d.Like line text d') : d.growth = d'.growth := by
  unfold Draft.growth
  rw [h.isFull, h.nextCapacity]

theorem push (h : d.Like line text d') (hn : n.Like line text n') :
    (d.push n).Like line text (d'.push n') := by
  refine ⟨h.kind, ?_, h.nextCapacity, h.line, h.text⟩
  rw [Draft.toList_children_push, Draft.toList_children_push]
  exact List.rel_append h.children (.cons hn .nil)

theorem close (h : d.Like line text d') : d.close.Like line text d'.close :=
  Node.like_iff.mpr ⟨h.kind, h.line, h.text, h.capacity, h.children⟩

end Draft.Like

theorem Node.Like.toCast {n n' : Node} (h : n.Like line text n') :
    n.toCast.Like line text n'.toCast := by
  obtain ⟨-, hl, hx, hc, hns⟩ := Node.like_iff.mp h
  exact Node.like_iff.mpr ⟨rfl, hl, hx, hc, hns⟩

end MiniC
