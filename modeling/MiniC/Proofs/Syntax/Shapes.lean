import MiniC.Proofs.Syntax.Written

namespace MiniC.Syntax

theorem Leaf.shape_injective : Function.Injective Leaf.shape := by
  intro a b h
  obtain ⟨hkind, htext, -⟩ := Shape.mk.inj h
  have hk := NodeKind.token.inj hkind
  cases a
  cases b
  exact congr (congrArg Leaf.mk hk) htext

theorem TypeName.shapes_injective : Function.Injective TypeName.shapes := fun _ _ h =>
  TypeName.ext_leaves (List.map_injective_iff.mpr Leaf.shape_injective h)

namespace Variable

theorem shapes_injective : Function.Injective Variable.shapes := by
  intro a b h
  obtain ⟨htype, hrest⟩ := List.cons.inj h
  obtain ⟨hname, -⟩ := List.cons.inj hrest
  have ht := TypeName.shapes_injective (Shape.mk.inj htype).2.2
  have hn := (Leaf.mk.inj (Leaf.shape_injective hname)).2
  cases a
  cases b
  exact congr (congrArg Variable.mk ht) hn

/-- Every variable has two shapes, so that a row of them falls into pairs. -/
theorem flatMap_shapes_injective : Function.Injective (List.flatMap Variable.shapes) := by
  intro vs
  induction vs with
  | nil =>
    intro ws h
    cases ws with
    | nil => rfl
    | cons w ws => simp [shapes] at h
  | cons v vs ih =>
    intro ws h
    cases ws with
    | nil => simp [shapes] at h
    | cons w ws =>
      obtain ⟨hv, hvs⟩ := List.append_inj (show v.shapes ++ _ = w.shapes ++ _ from h) rfl
      rw [shapes_injective hv, ih hvs]

end Variable

theorem Signature.shapes_injective : Function.Injective Signature.shapes := by
  intro a b h
  obtain ⟨hhead, hlist⟩ :=
    List.append_inj (show a.head.shapes ++ _ = b.head.shapes ++ _ from h) rfl
  have hv := Variable.shapes_injective hhead
  have hp := (Shape.mk.inj (List.cons.inj hlist).1).2.2
  have hps := Variable.flatMap_shapes_injective hp
  cases a
  cases b
  exact congr (congrArg Signature.mk hv) hps

namespace Expression

theorem shapes_injective : Function.Injective Expression.shapes := by
  intro e
  induction e with
  | nil =>
    intro e' h
    cases e' with
    | nil => rfl
    | _ => simp [shapes] at h
  | leaf l rest ih =>
    intro e' h
    cases e' with
    | leaf l' rest' =>
      obtain ⟨hl, hrest⟩ := List.cons.inj h
      rw [Leaf.shape_injective hl, ih hrest]
    | _ => simp [shapes, Leaf.shape] at h
  | cast ty rest ih =>
    intro e' h
    cases e' with
    | cast ty' rest' =>
      obtain ⟨hty, hrest⟩ := List.cons.inj h
      rw [TypeName.shapes_injective (Shape.mk.inj hty).2.2, ih hrest]
    | _ => simp [shapes, Leaf.shape] at h
  | group inner rest ihi ihr =>
    intro e' h
    cases e' with
    | group inner' rest' =>
      obtain ⟨hinner, hrest⟩ := List.cons.inj h
      rw [ihi (Shape.mk.inj hinner).2.2, ihr hrest]
    | _ => simp [shapes, Leaf.shape] at h

theorem shape_injective : Function.Injective Expression.shape := fun _ _ h =>
  shapes_injective (Shape.mk.inj h).2.2

end Expression

namespace Statement

theorem shape_kind (st : Statement) : st.shape.kind = .statement := by
  cases st <;> rfl

theorem shapeAll_ne_cons {ss : List Statement} {x : Shape} {xs : List Shape}
    (hx : x.kind ≠ .statement) : shapeAll ss ≠ x :: xs := by
  intro h
  cases ss with
  | nil => simp [shapeAll] at h
  | cons s ss =>
    obtain ⟨hs, -⟩ := List.cons.inj h
    exact hx (hs ▸ s.shape_kind)

mutual

/-- The first child tells the forms apart: a statement, the keyword's leaf or an expression. -/
theorem shape_inj : ∀ {a b : Statement}, a.shape = b.shape → a = b
  | compound body, compound body', h => by
    rw [shape, shape] at h
    rw [shapeAll_inj (Shape.mk.inj h).2.2]
  | ret text? value, ret text?' value', h => by
    rw [shape, shape] at h
    obtain ⟨hleaf, hrest⟩ := List.cons.inj (Shape.mk.inj h).2.2
    have ht := (Leaf.mk.inj (Leaf.shape_injective hleaf)).2
    have hv := Expression.shape_injective (List.cons.inj hrest).1
    rw [ht, hv]
  | expression e, expression e', h => by
    rw [shape, shape] at h
    rw [Expression.shape_injective (List.cons.inj (Shape.mk.inj h).2.2).1]
  | compound _, ret _ _, h | compound _, expression _, h => by
    rw [shape, shape] at h
    exact absurd (Shape.mk.inj h).2.2 (shapeAll_ne_cons (by simp [Leaf.shape, Expression.shape]))
  | ret _ _, compound _, h | expression _, compound _, h => by
    rw [shape, shape] at h
    exact absurd (Shape.mk.inj h).2.2.symm
      (shapeAll_ne_cons (by simp [Leaf.shape, Expression.shape]))
  | ret _ _, expression _, h | expression _, ret _ _, h => by simp [shape] at h

theorem shapeAll_inj : ∀ {a b : List Statement}, shapeAll a = shapeAll b → a = b
  | [], [], _ => rfl
  | [], _ :: _, h => by simp [shapeAll] at h
  | _ :: _, [], h => by simp [shapeAll] at h
  | s :: ss, s' :: ss', h => by
    rw [shapeAll, shapeAll] at h
    obtain ⟨hs, hss⟩ := List.cons.inj h
    rw [shape_inj hs, shapeAll_inj hss]

end

end Statement

theorem Local.shape_injective : Function.Injective Local.shape := by
  intro a b h
  cases a with
  | definition v =>
    cases b with
    | definition w => rw [Variable.shapes_injective (Shape.mk.inj h).2.2]
    | statement s =>
      have hk := (congrArg Shape.kind h).trans s.shape_kind
      simp [Local.shape] at hk
  | statement s =>
    cases b with
    | definition w =>
      have hk := s.shape_kind.symm.trans (congrArg Shape.kind h)
      simp [Local.shape] at hk
    | statement s' => rw [Statement.shape_inj h]

theorem Item.shape_injective : Function.Injective Item.shape := by
  intro a b h
  have hkind := congrArg Shape.kind h
  have hchildren := congrArg Shape.children h
  cases a <;> cases b <;> try exact NodeKind.noConfusion hkind
  case declaration v w => rw [Variable.shapes_injective hchildren]
  case definition v w => rw [Variable.shapes_injective hchildren]
  case prototype g g' => rw [Signature.shapes_injective hchildren]
  case function g body g' body' =>
    obtain ⟨hg, hbody⟩ :=
      List.append_inj (show g.shapes ++ _ = g'.shapes ++ _ from hchildren) rfl
    have hlocals := (Shape.mk.inj (List.cons.inj hbody).1).2.2
    have hl := List.map_injective_iff.mpr Local.shape_injective hlocals
    rw [Signature.shapes_injective hg, hl]

theorem TranslationUnit.shape_injective : Function.Injective TranslationUnit.shape := fun _ _ h =>
  List.map_injective_iff.mpr Item.shape_injective (Shape.mk.inj h).2.2

end MiniC.Syntax
