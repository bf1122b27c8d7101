import MiniC.Proofs.Syntax.Tree

namespace MiniC

namespace Node

mutual

def lines : Node → List Nat
  | ⟨_, line, _, _, ns⟩ => line :: linesAll ns

def linesAll : List Node → List Nat
  | [] => []
  | n :: ns => n.lines ++ linesAll ns

end

theorem linesAll_eq_flatMap (ns : List Node) : linesAll ns = ns.flatMap lines := by
  induction ns with
  | nil => rfl
  | cons n ns ih => rw [linesAll, ih, List.flatMap_cons]

theorem lines_eq (n : Node) : n.lines = n.line :: n.children.flatMap lines := by
  cases n
  rw [lines, linesAll_eq_flatMap]

mutual

theorem lines_rowsOnto (depth : Nat) (rows : Array NodeRow) :
    ∀ n : Node, (n.rowsOnto depth rows).toList.map NodeRow.line =
      rows.toList.map NodeRow.line ++ n.lines
  | ⟨kind, line, text?, capacity, ns⟩ => by
    rw [rowsOnto, lines_rowsOfAll, lines]
    simp

theorem lines_rowsOfAll (depth : Nat) (rows : Array NodeRow) :
    ∀ ns : List Node, (rowsOfAll depth rows ns).toList.map NodeRow.line =
      rows.toList.map NodeRow.line ++ linesAll ns
  | [] => by simp [rowsOfAll, linesAll]
  | n :: ns => by
    rw [rowsOfAll, lines_rowsOfAll depth _ ns, lines_rowsOnto depth rows n, linesAll,
      List.append_assoc]

end

theorem lines_rows (n : Node) : n.rows.toList.map NodeRow.line = n.lines := by
  rw [rows, lines_rowsOnto]
  rfl

end Node

namespace Shape

mutual

def labels : Shape → List (NodeKind × Option String)
  | ⟨kind, text?, xs⟩ => (kind, text?) :: labelsAll xs

def labelsAll : List Shape → List (NodeKind × Option String)
  | [] => []
  | x :: xs => x.labels ++ labelsAll xs

end

theorem labelsAll_append (xs ys : List Shape) :
    labelsAll (xs ++ ys) = labelsAll xs ++ labelsAll ys := by
  induction xs with
  | nil => rfl
  | cons x xs ih => simp [labelsAll, ih]

end Shape

namespace Node

mutual

theorem labels_rowsOnto (depth : Nat) (rows : Array NodeRow) :
    ∀ n : Node, (n.rowsOnto depth rows).toList.map (fun row => (row.kind, row.text?)) =
      rows.toList.map (fun row => (row.kind, row.text?)) ++ n.shape.labels
  | ⟨kind, line, text?, capacity, ns⟩ => by
    rw [rowsOnto, labels_rowsOfAll, shape, Shape.labels]
    simp

theorem labels_rowsOfAll (depth : Nat) (rows : Array NodeRow) :
    ∀ ns : List Node, (rowsOfAll depth rows ns).toList.map (fun row => (row.kind, row.text?)) =
      rows.toList.map (fun row => (row.kind, row.text?)) ++ Shape.labelsAll (shapes ns)
  | [] => by simp [rowsOfAll, shapes, Shape.labelsAll]
  | n :: ns => by
    rw [rowsOfAll, labels_rowsOfAll depth _ ns, labels_rowsOnto depth rows n, shapes,
      Shape.labelsAll, List.append_assoc]

end

theorem labels_rows (n : Node) :
    n.rows.toList.map (fun row => (row.kind, row.text?)) = n.shape.labels := by
  rw [rows, labels_rowsOnto]
  rfl

end Node

namespace Syntax

/-- What begins there, if `count` signs are put before. -/
def behind (count : Nat) (firsts : List Nat) : List Nat := firsts.map (count + ·)

theorem behind_behind (a b : Nat) (firsts : List Nat) :
    behind a (behind b firsts) = behind (a + b) firsts := by
  rw [behind, behind, behind, List.map_map]
  exact List.map_congr_left fun i _ => (Nat.add_assoc a b i).symm

/-- Where the nodes of a row of trees begin that are printed without anything between them. -/
def rowFirsts {α : Type} (print : α → List Sign) (firsts : α → List Nat) : List α → List Nat
  | [] => []
  | x :: xs => firsts x ++ behind (print x).length (rowFirsts print firsts xs)

theorem rowFirsts_append {α : Type} (print : α → List Sign) (firsts : α → List Nat)
    (xs ys : List α) : rowFirsts print firsts (xs ++ ys) =
      rowFirsts print firsts xs ++ behind (xs.flatMap print).length (rowFirsts print firsts ys) := by
  induction xs with
  | nil => simp [rowFirsts, behind]
  | cons x xs ih =>
    rw [List.cons_append, rowFirsts, ih, rowFirsts, List.flatMap_cons, List.length_append,
      ← behind_behind, List.append_assoc]
    congr 1
    exact List.map_append

theorem rowFirsts_lt {α : Type} {print : α → List Sign} {firsts : α → List Nat} {xs : List α}
    (h : ∀ x ∈ xs, ∀ i ∈ firsts x, i < (print x).length) :
    ∀ i ∈ rowFirsts print firsts xs, i < (xs.flatMap print).length := by
  induction xs with
  | nil => simp [rowFirsts]
  | cons x xs ih =>
    intro i hi
    rw [List.flatMap_cons, List.length_append]
    rcases List.mem_append.mp hi with hi | hi
    · exact Nat.lt_add_right _ (h x List.mem_cons_self i hi)
    · obtain ⟨j, hj, rfl⟩ := List.mem_map.mp hi
      exact Nat.add_lt_add_left (ih (fun y hy => h y (List.mem_cons_of_mem _ hy)) j hj) _

def TypeName.firsts (ty : TypeName) : List Nat := 0 :: List.range ty.leaves.length

namespace Variable

def firsts (v : Variable) : List Nat := v.type.firsts ++ [v.type.print.length]

def furtherFirsts : List Variable → List Nat
  | [] => []
  | v :: vs => behind 1 (v.firsts ++ behind v.print.length (furtherFirsts vs))

def allFirsts : List Variable → List Nat
  | [] => []
  | v :: vs => v.firsts ++ behind v.print.length (furtherFirsts vs)

end Variable

def Signature.firsts (g : Signature) : List Nat :=
  g.head.firsts ++ behind (g.head.print.length + 1) (0 :: Variable.allFirsts g.parameters)

namespace Expression

def partFirsts : Expression → List Nat
  | nil => []
  | leaf _ rest => 0 :: behind 1 rest.partFirsts
  | cast ty rest => behind 1 ty.firsts ++ behind (ty.print.length + 2) rest.partFirsts
  | group inner rest =>
    behind 1 (0 :: inner.partFirsts) ++ behind (inner.print.length + 2) rest.partFirsts

def firsts (e : Expression) : List Nat := 0 :: e.partFirsts

end Expression

namespace Statement

mutual

def firsts : Statement → List Nat
  | compound body => 0 :: behind 1 (firstsAll body)
  | ret _ value => 0 :: 0 :: behind 1 value.firsts
  | expression e => 0 :: e.firsts

def firstsAll : List Statement → List Nat
  | [] => []
  | s :: ss => s.firsts ++ behind s.print.length (firstsAll ss)

end

theorem firstsAll_eq (ss : List Statement) : firstsAll ss = rowFirsts print firsts ss := by
  induction ss with
  | nil => rfl
  | cons s ss ih => rw [firstsAll, ih, rowFirsts]

end Statement

def Local.firsts : Local → List Nat
  | definition v => 0 :: v.firsts
  | statement s => s.firsts

def Item.firsts : Item → List Nat
  | declaration v => 0 :: behind 1 v.firsts
  | definition v => 0 :: v.firsts
  | prototype g => 0 :: g.firsts
  | function g body =>
    0 :: (g.firsts ++ behind (g.print.length + 1) (0 :: rowFirsts Local.print Local.firsts body))

def TranslationUnit.firsts (u : TranslationUnit) : List Nat :=
  0 :: rowFirsts Item.print Item.firsts u

/-- If a node is a leaf, then its own sign is at the place. -/
def IsAt (signs : List Sign) (label : NodeKind × Option String) (i : Nat) : Prop :=
  ∀ kind, label.1 = .token kind → signs[i]? = some (.leaf ⟨kind, label.2⟩)

/-- These are places in the text at which the nodes of a row of trees can begin. -/
structure Laid (signs : List Sign) (shapes : List Shape) (firsts : List Nat) : Prop where
  sorted : firsts.Pairwise (· ≤ ·)
  le : ∀ i ∈ firsts, i ≤ signs.length
  isAt : List.Forall₂ (IsAt signs) (Shape.labelsAll shapes) firsts

theorem IsAt.append_right {p : List Sign} {label : NodeKind × Option String} {i : Nat}
    (h : IsAt p label i) (q : List Sign) : IsAt (p ++ q) label i := by
  intro kind hkind
  have hi := h kind hkind
  obtain ⟨hlt, -⟩ := List.getElem?_eq_some_iff.mp hi
  rwa [List.getElem?_append_left hlt]

theorem IsAt.behind {q : List Sign} {label : NodeKind × Option String} {i : Nat}
    (h : IsAt q label i) (p : List Sign) : IsAt (p ++ q) label (p.length + i) := by
  intro kind hkind
  rw [List.getElem?_append_right (Nat.le_add_right _ _), Nat.add_sub_cancel_left]
  exact h kind hkind

namespace Laid

variable {p q : List Sign} {xs ys : List Shape} {l m : List Nat}

theorem nil (p : List Sign) : Laid p [] [] := ⟨.nil, by simp, .nil⟩

theorem node (h : Laid p xs l) (kind : NodeKind) (text? : Option String)
    (hkind : ∀ k, kind ≠ .token k) : Laid p [⟨kind, text?, xs⟩] (0 :: l) := by
  refine ⟨List.pairwise_cons.mpr ⟨fun i _ => Nat.zero_le i, h.sorted⟩, fun i hi => ?_, ?_⟩
  · rcases List.mem_cons.mp hi with rfl | hi
    · exact Nat.zero_le _
    · exact h.le i hi
  · have hroot : IsAt p (kind, text?) 0 := fun k hk => absurd hk (hkind k)
    simpa only [Shape.labelsAll, Shape.labels, List.append_nil] using List.Forall₂.cons hroot h.isAt

theorem leaf (x : Leaf) (p : List Sign) : Laid (.leaf x :: p) [x.shape] [0] := by
  refine ⟨List.pairwise_singleton _ 0, by simp, ?_⟩
  have hx : IsAt (.leaf x :: p) (.token x.kind, x.text?) 0 := by
    rintro kind ⟨⟩
    rfl
  exact .cons hx .nil

theorem append_right (h : Laid p xs l) (q : List Sign) : Laid (p ++ q) xs l := by
  refine ⟨h.sorted, fun i hi => ?_, h.isAt.imp fun _ _ hi => hi.append_right q⟩
  have hle := h.le i hi
  rw [List.length_append]
  omega

theorem behind (h : Laid q xs l) (p : List Sign) : Laid (p ++ q) xs (behind p.length l) := by
  refine ⟨h.sorted.map _ fun i j hij => Nat.add_le_add_left hij _, fun i hi => ?_, ?_⟩
  · obtain ⟨j, hj, rfl⟩ := List.mem_map.mp hi
    rw [List.length_append]
    exact Nat.add_le_add_left (h.le j hj) _
  · exact List.forall₂_map_right_iff.mpr (h.isAt.imp fun _ _ hi => hi.behind p)

theorem append (h : Laid p xs l) (k : Laid q ys m) :
    Laid (p ++ q) (xs ++ ys) (l ++ Syntax.behind p.length m) := by
  have hl := h.append_right q
  have hm := k.behind p
  refine ⟨List.pairwise_append.mpr ⟨hl.sorted, hm.sorted, fun i hi j hj => ?_⟩, fun i hi => ?_, ?_⟩
  · obtain ⟨j, -, rfl⟩ := List.mem_map.mp hj
    exact Nat.le_trans (h.le i hi) (Nat.le_add_right _ j)
  · rcases List.mem_append.mp hi with hi | hi
    · exact hl.le i hi
    · exact hm.le i hi
  · rw [Shape.labelsAll_append]
    exact List.rel_append hl.isAt hm.isAt

theorem row {α : Type} {print : α → List Sign} {shape : α → Shape} {firsts : α → List Nat}
    (as : List α) (h : ∀ a ∈ as, Laid (print a) [shape a] (firsts a)) :
    Laid (as.flatMap print) (as.map shape) (rowFirsts print firsts as) := by
  induction as with
  | nil => exact .nil _
  | cons a as ih =>
    have ha := h a List.mem_cons_self
    have has := ih fun b hb => h b (List.mem_cons_of_mem _ hb)
    rw [List.flatMap_cons]
    exact ha.append has

end Laid

theorem TypeName.laid (ty : TypeName) (kind : NodeKind) (hkind : ∀ k, kind ≠ .token k) :
    Laid ty.print [⟨kind, none, ty.shapes⟩] ty.firsts := by
  have leaves (ls : List Leaf) :
      Laid (ls.map .leaf) (ls.map Leaf.shape) (List.range ls.length) := by
    induction ls with
    | nil => exact .nil _
    | cons l ls ih =>
      have hrange : List.range (ls.length + 1) = [0] ++ behind 1 (List.range ls.length) := by
        rw [List.range_succ_eq_map]
        simp [behind, Nat.add_comm 1]
      rw [List.length_cons, hrange]
      exact (Laid.leaf l []).append ih
  exact (leaves ty.leaves).node kind none hkind

theorem Variable.laid (v : Variable) : Laid v.print v.shapes v.firsts :=
  (v.type.laid .type (by simp)).append (.leaf v.name [])

theorem Variable.furtherLaid (vs : List Variable) :
    Laid (printFurther vs) (vs.flatMap Variable.shapes) (furtherFirsts vs) := by
  induction vs with
  | nil => exact .nil _
  | cons v vs ih =>
    have hall := (v.laid.append ih).behind [.mark .comma]
    simpa [printFurther, furtherFirsts] using hall

theorem Variable.allLaid (vs : List Variable) :
    Laid (printAll vs) (vs.flatMap Variable.shapes) (allFirsts vs) := by
  cases vs with
  | nil => exact .nil _
  | cons v vs => exact v.laid.append (furtherLaid vs)

theorem Signature.laid (g : Signature) : Laid g.print g.shapes g.firsts := by
  have hlist := (Variable.allLaid g.parameters).node .paramList none (by simp)
  have hrest := (hlist.append_right [.mark .rParen]).behind [.mark .lParen]
  have hall := g.head.laid.append hrest
  rw [behind_behind] at hall
  exact hall

theorem Expression.partLaid (e : Expression) : Laid e.print e.shapes e.partFirsts := by
  induction e with
  | nil => exact .nil _
  | leaf l rest ih => exact (Laid.leaf l []).append ih
  | cast ty rest ih =>
    have hty := (ty.laid .cast (by simp)).append_right [.mark .rParen]
    have hall := (hty.behind [.mark .lParen]).append ih
    simpa [print, shapes, partFirsts] using hall
  | group inner rest ihi ihr =>
    have hnode := ihi.node .expression none (by simp)
    have hall := ((hnode.append_right [.mark .rParen]).behind [.mark .lParen]).append ihr
    simpa [print, shapes, partFirsts] using hall

theorem Expression.laid (e : Expression) : Laid e.print [e.shape] e.firsts :=
  e.partLaid.node .expression none (by simp)

namespace Statement

mutual

theorem laid : ∀ st : Statement, Laid st.print [st.shape] st.firsts
  | compound body => by
    have hbody := ((laidAll body).append_right [.mark .rBrace]).behind [.mark .lBrace]
    exact hbody.node .statement none (by simp)
  | ret text? value => by
    have hvalue := value.laid.append_right [.mark .semicolon]
    have hall := (Laid.leaf ⟨.kwReturn, text?⟩ []).append hvalue
    exact hall.node .statement none (by simp)
  | expression e => by
    have he := e.laid.append_right [.mark .semicolon]
    exact he.node .statement none (by simp)

theorem laidAll : ∀ ss : List Statement, Laid (printAll ss) (shapeAll ss) (firstsAll ss)
  | [] => .nil _
  | s :: ss => (laid s).append (laidAll ss)

end

end Statement

theorem Local.laid (x : Local) : Laid x.print [x.shape] x.firsts := by
  cases x with
  | definition v =>
    have hv := v.laid.append_right [.mark .semicolon]
    exact hv.node .varDef none (by simp)
  | statement s => exact s.laid

theorem Item.laid (i : Item) : Laid i.print [i.shape] i.firsts := by
  cases i with
  | declaration v =>
    have hv := (v.laid.append_right [.mark .semicolon]).behind [.mark .kwExtern]
    exact hv.node .varDecl none (by simp)
  | definition v =>
    have hv := v.laid.append_right [.mark .semicolon]
    exact hv.node .varDef none (by simp)
  | prototype g =>
    have hg := g.laid.append_right [.mark .semicolon]
    exact hg.node .funcDecl none (by simp)
  | function g body =>
    have hrow := Laid.row body fun x _ => x.laid
    have hlist := hrow.node .statementList none (by simp)
    have hbody := (hlist.append_right [.mark .rBrace]).behind [.mark .lBrace]
    have hall := g.laid.append hbody
    rw [behind_behind] at hall
    exact hall.node .funcDef none (by simp)

theorem Item.firsts_lt (i : Item) : ∀ k ∈ i.firsts, k < i.print.length := by
  intro k hk
  cases i with
  | declaration v =>
    rw [print, List.length_cons, List.length_append]
    rcases List.mem_cons.mp hk with rfl | hk
    · exact Nat.succ_pos _
    · obtain ⟨j, hj, rfl⟩ := List.mem_map.mp hk
      have hle := v.laid.le j hj
      rw [List.length_singleton]
      omega
  | definition v =>
    rw [print, List.length_append, List.length_singleton, Nat.lt_succ_iff]
    rcases List.mem_cons.mp hk with rfl | hk
    · exact Nat.zero_le _
    · exact v.laid.le k hk
  | prototype g =>
    rw [print, List.length_append, List.length_singleton, Nat.lt_succ_iff]
    rcases List.mem_cons.mp hk with rfl | hk
    · exact Nat.zero_le _
    · exact g.laid.le k hk
  | function g body =>
    rw [print, List.length_append, List.length_cons, List.length_append, List.length_singleton]
    rcases List.mem_cons.mp hk with rfl | hk
    · omega
    rcases List.mem_append.mp hk with hk | hk
    · have hle := g.laid.le k hk
      omega
    · obtain ⟨j, hj, rfl⟩ := List.mem_map.mp hk
      rcases List.mem_cons.mp hj with rfl | hj
      · omega
      · have hle := (Laid.row body fun x _ => x.laid).le j hj
        omega

/-- In preorder the nodes of a translation unit begin in the order of the text, and the leaves where
their signs are. -/
theorem TranslationUnit.laid (u : TranslationUnit) : Laid u.print [u.shape] u.firsts :=
  (Laid.row u fun i _ => i.laid).node .translationUnit none (by simp)

end Syntax

end MiniC
