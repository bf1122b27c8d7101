import MiniC.Proofs.Syntax.Firsts
import MiniC.Proofs.Syntax.Written

namespace MiniC

open Syntax

/-- What the tree keeps of a token, if the node is a leaf. -/
def Shape.leaf? : NodeKind × Option String → Option Leaf
  | (.token kind, text?) => some ⟨kind, text?⟩
  | _ => none

namespace Syntax

def Sign.leaf? : Sign → Option Leaf
  | .mark _ => none
  | .leaf l => some l

/-- The tokens of a text that a tree keeps. -/
def keptTokens : List Sign → List Token → List Token
  | .leaf _ :: signs, t :: tokens => t :: keptTokens signs tokens
  | .mark _ :: signs, _ :: tokens => keptTokens signs tokens
  | _, _ => []

theorem Written.leaves {signs : List Sign} {tokens : List Token} (h : Written signs tokens) :
    signs.filterMap Sign.leaf? = (keptTokens signs tokens).map Leaf.ofToken := by
  induction h with
  | nil => rfl
  | @cons g t signs tokens hg _ ih =>
    cases g with
    | mark kind => exact ih
    | leaf l =>
      have hl : Leaf.ofToken t = l := hg
      exact congrArg₂ List.cons hl.symm ih

/-- The leaves of a row of trees are those of its text, and its other nodes have no text. -/
structure Prints (signs : List Sign) (shapes : List Shape) : Prop where
  leaves : (Shape.labelsAll shapes).filterMap Shape.leaf? = signs.filterMap Sign.leaf?
  blank : ∀ label ∈ Shape.labelsAll shapes, Shape.leaf? label = none → label.2 = none

namespace Prints

variable {p q : List Sign} {xs ys : List Shape}

theorem nil : Prints [] [] := ⟨rfl, by simp [Shape.labelsAll]⟩

theorem leaf (l : Leaf) : Prints [.leaf l] [l.shape] := by
  refine ⟨rfl, fun label hlabel hnone => ?_⟩
  obtain rfl : label = (.token l.kind, l.text?) := by
    simpa [Leaf.shape, Shape.labelsAll, Shape.labels] using hlabel
  simp [Shape.leaf?] at hnone

theorem mark (kind : TokenKind) : Prints [.mark kind] [] := ⟨rfl, by simp [Shape.labelsAll]⟩

theorem append (h : Prints p xs) (k : Prints q ys) : Prints (p ++ q) (xs ++ ys) := by
  refine ⟨?_, fun label hlabel => ?_⟩
  · rw [Shape.labelsAll_append, List.filterMap_append, h.leaves, k.leaves, List.filterMap_append]
  · rw [Shape.labelsAll_append] at hlabel
    exact (List.mem_append.mp hlabel).elim (h.blank label) (k.blank label)

theorem node (h : Prints p xs) (kind : NodeKind) (hkind : Shape.leaf? (kind, none) = none) :
    Prints p [⟨kind, none, xs⟩] := by
  have hlabels : Shape.labelsAll [⟨kind, none, xs⟩] = (kind, none) :: Shape.labelsAll xs := by
    simp [Shape.labelsAll, Shape.labels]
  refine ⟨?_, fun label hlabel hnone => ?_⟩
  · rw [hlabels, List.filterMap_cons_none hkind, h.leaves]
  · rw [hlabels] at hlabel
    rcases List.mem_cons.mp hlabel with rfl | hlabel
    · rfl
    · exact h.blank label hlabel hnone

theorem row {α : Type} {print : α → List Sign} {shapes : α → List Shape} (as : List α)
    (h : ∀ a ∈ as, Prints (print a) (shapes a)) :
    Prints (as.flatMap print) (as.flatMap shapes) := by
  induction as with
  | nil => exact .nil
  | cons a as ih =>
    rw [List.flatMap_cons, List.flatMap_cons]
    exact (h a List.mem_cons_self).append (ih fun b hb => h b (List.mem_cons_of_mem _ hb))

theorem nodes {α : Type} {print : α → List Sign} {shape : α → Shape} (as : List α)
    (h : ∀ a ∈ as, Prints (print a) [shape a]) : Prints (as.flatMap print) (as.map shape) := by
  rw [List.map_eq_flatMap]
  exact row as h

end Prints

theorem TypeName.prints (ty : TypeName) : Prints ty.print ty.shapes := by
  have hrow := Prints.nodes ty.leaves fun l _ => Prints.leaf l
  rwa [← List.map_eq_flatMap] at hrow

theorem Variable.prints (v : Variable) : Prints v.print v.shapes :=
  (v.type.prints.node .type rfl).append (.leaf v.name)

theorem Variable.prints_all (vs : List Variable) :
    Prints (printAll vs) (vs.flatMap Variable.shapes) := by
  cases vs with
  | nil => exact .nil
  | cons v vs =>
    rw [List.flatMap_cons]
    exact v.prints.append (.row vs fun w _ => (Prints.mark .comma).append w.prints)

theorem Signature.prints (g : Signature) : Prints g.print g.shapes := by
  have hlist := (Variable.prints_all g.parameters).node .paramList rfl
  exact g.head.prints.append ((Prints.mark .lParen).append (hlist.append (.mark .rParen)))

theorem Expression.prints_parts (e : Expression) : Prints e.print e.shapes := by
  induction e with
  | nil => exact .nil
  | leaf l rest ih => exact (Prints.leaf l).append ih
  | cast ty rest ih =>
    have hty := ty.prints.node .cast rfl
    exact (Prints.mark .lParen).append (hty.append ((Prints.mark .rParen).append ih))
  | group inner rest ihi ihr =>
    have hinner := ihi.node .expression rfl
    exact (Prints.mark .lParen).append (hinner.append ((Prints.mark .rParen).append ihr))

theorem Expression.prints (e : Expression) : Prints e.print [e.shape] :=
  e.prints_parts.node .expression rfl

namespace Statement

mutual

theorem prints : ∀ st : Statement, Prints st.print [st.shape]
  | compound body => by
    have hbody := (prints_all body).append (.mark .rBrace)
    rw [List.append_nil] at hbody
    exact ((Prints.mark .lBrace).append hbody).node .statement rfl
  | ret text? value => by
    have hvalue := value.prints.append (.mark .semicolon)
    exact ((Prints.leaf ⟨.kwReturn, text?⟩).append hvalue).node .statement rfl
  | expression e => (e.prints.append (.mark .semicolon)).node .statement rfl

theorem prints_all : ∀ ss : List Statement, Prints (printAll ss) (shapeAll ss)
  | [] => .nil
  | s :: ss => (prints s).append (prints_all ss)

end

end Statement

theorem Local.prints (x : Local) : Prints x.print [x.shape] := by
  cases x with
  | definition v => exact (v.prints.append (.mark .semicolon)).node .varDef rfl
  | statement s => exact s.prints

theorem Item.prints (i : Item) : Prints i.print [i.shape] := by
  cases i with
  | declaration v =>
    exact ((Prints.mark .kwExtern).append (v.prints.append (.mark .semicolon))).node .varDecl rfl
  | definition v => exact (v.prints.append (.mark .semicolon)).node .varDef rfl
  | prototype g =>
    have hg := g.prints.append (.mark .semicolon)
    rw [List.append_nil] at hg
    exact hg.node .funcDecl rfl
  | function g body =>
    have hlist := (Prints.nodes body fun x _ => x.prints).node .statementList rfl
    have hbody := (Prints.mark .lBrace).append (hlist.append (.mark .rBrace))
    exact (g.prints.append hbody).node .funcDef rfl

theorem TranslationUnit.prints (u : TranslationUnit) : Prints u.print [u.shape] :=
  (Prints.nodes u fun i _ => i.prints).node .translationUnit rfl

end Syntax

end MiniC
