import MiniC.Proofs.Syntax.Tree

namespace MiniC

namespace Shape

mutual

/-- How many nodes of the kind `child` have a parent of the kind `parent`. -/
def pairs (parent child : NodeKind) : Shape → Nat
  | ⟨kind, _, xs⟩ =>
    (if kind = parent then (xs.map Shape.kind).count child else 0) + pairsAll parent child xs

def pairsAll (parent child : NodeKind) : List Shape → Nat
  | [] => 0
  | x :: xs => x.pairs parent child + pairsAll parent child xs

end

variable {parent child : NodeKind}

theorem pairsAll_append (xs ys : List Shape) :
    pairsAll parent child (xs ++ ys) = pairsAll parent child xs + pairsAll parent child ys := by
  induction xs with
  | nil => simp [pairsAll]
  | cons x xs ih => rw [List.cons_append, pairsAll, ih, pairsAll, Nat.add_assoc]

theorem pairsAll_eq_zero {xs : List Shape} (h : ∀ x ∈ xs, x.pairs parent child = 0) :
    pairsAll parent child xs = 0 := by
  induction xs with
  | nil => rfl
  | cons x xs ih =>
    rw [pairsAll, h x List.mem_cons_self, ih fun y hy => h y (List.mem_cons_of_mem _ hy)]

theorem pairs_concat (kind : NodeKind) (text? : Option String) (xs : List Shape) (x : Shape) :
    (Shape.mk kind text? (xs ++ [x])).pairs parent child =
      (Shape.mk kind text? xs).pairs parent child + x.pairs parent child +
        if kind = parent ∧ x.kind = child then 1 else 0 := by
  rw [pairs, pairs, pairsAll_append, pairsAll, pairsAll, List.map_append, List.map_singleton,
    List.count_append, List.count_singleton]
  by_cases hkind : kind = parent <;> by_cases hchild : x.kind = child <;> simp [hkind, hchild] <;>
    omega

theorem pairs_of_ne {kind : NodeKind} (h : kind ≠ parent) (text? : Option String)
    (xs : List Shape) : (Shape.mk kind text? xs).pairs parent child = pairsAll parent child xs := by
  rw [pairs, if_neg h, Nat.zero_add]

end Shape

namespace Syntax

open Shape

variable {parent child : NodeKind}

theorem Leaf.pairs_shape (l : Leaf) : l.shape.pairs parent child = 0 := by
  simp [shape, pairs, pairsAll]

theorem TypeName.pairs_shapes (ty : TypeName) : pairsAll parent child ty.shapes = 0 := by
  refine pairsAll_eq_zero fun x hx => ?_
  obtain ⟨l, -, rfl⟩ := List.mem_map.mp hx
  exact l.pairs_shape

theorem Variable.pairs_shapes (h : parent ≠ .type) (v : Variable) :
    pairsAll parent child v.shapes = 0 := by
  simp [shapes, pairsAll, pairs_of_ne h.symm, TypeName.pairs_shapes, Leaf.pairs_shape]

theorem Signature.pairs_shapes (h : parent ≠ .type) (hlist : parent ≠ .paramList)
    (g : Signature) : pairsAll parent child g.shapes = 0 := by
  have hparameters (vs : List Variable) :
      pairsAll parent child (vs.flatMap Variable.shapes) = 0 := by
    induction vs with
    | nil => rfl
    | cons v vs ih => rw [List.flatMap_cons, pairsAll_append, v.pairs_shapes h, ih]
  rw [shapes, pairsAll_append, Variable.pairs_shapes h, pairsAll, pairsAll,
    pairs_of_ne hlist.symm, hparameters]

end Syntax

end MiniC
