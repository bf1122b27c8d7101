import MiniC.Proofs.Runs.Report
import MiniC.Proofs.Syntax.Pairs

namespace MiniC

open Syntax

def Event.isMismatchOf (rule : Rule) : Event → Bool
  | .backtracked other _ => other == rule
  | _ => false

/-- How many attempts of the rule did not match. -/
def mismatches (rule : Rule) (events : List Event) : Nat := events.countP (·.isMismatchOf rule)

theorem mismatches_append (rule : Rule) (events log : List Event) :
    mismatches rule (events ++ log) = mismatches rule events + mismatches rule log :=
  List.countP_append

/-- From `s` to `t` the attempts of the rule that failed are those by which `n` is more than `m`. -/
def State.Tally (rule : Rule) (s : State) (m : Nat) (t : State) (n : Nat) : Prop :=
  mismatches rule t.log + m = mismatches rule s.log + n

/-- How many attempts of a rule failed for what is in a tree: one of a cast for each expression in an
expression, and one of a variable definition for each statement in the body of a function. -/
def Shape.detours (rule : Rule) (x : Shape) : Nat :=
  match rule with
  | .cast => x.pairs .expression .expression
  | .variableDefinition => x.pairs .statementList .statement
  | _ => 0

/-- How many attempts of a rule failed for items of these kinds at top level, where each kind is
looked for behind those that come before it. -/
def itemDetours (rule : Rule) (kinds : List NodeKind) : Nat :=
  match rule with
  | .variableDeclaration => kinds.count .varDef + kinds.count .funcDecl + kinds.count .funcDef
  | .variableDefinition => kinds.count .funcDecl + kinds.count .funcDef
  | .functionDeclaration => kinds.count .funcDef
  | _ => 0

theorem itemDetours_append (rule : Rule) (kinds kinds' : List NodeKind) :
    itemDetours rule (kinds ++ kinds') = itemDetours rule kinds + itemDetours rule kinds' := by
  cases rule <;> simp only [itemDetours, List.count_append] <;> omega

/-- How many attempts of a rule fail before a child of one kind is found for a node of another. -/
def childDetours (rule : Rule) (kind child : NodeKind) : Nat :=
  match rule with
  | .cast => if kind = .expression ∧ child = .expression then 1 else 0
  | .variableDefinition => if kind = .statementList ∧ child = .statement then 1 else 0
  | _ => 0

theorem Shape.detours_concat (rule : Rule) (kind : NodeKind) (text? : Option String)
    (xs : List Shape) (x : Shape) :
    (Shape.mk kind text? (xs ++ [x])).detours rule =
      (Shape.mk kind text? xs).detours rule + x.detours rule + childDetours rule kind x.kind := by
  cases rule <;> simp only [detours, childDetours, pairs_concat]

theorem Shape.detours_eq_zero {rule : Rule} {kind : NodeKind} {xs : List Shape}
    (hexpression : kind ≠ .expression) (hlist : kind ≠ .statementList)
    (h : ∀ parent child, parent ≠ .type → parent ≠ .paramList → pairsAll parent child xs = 0) :
    (Shape.mk kind none xs).detours rule = 0 := by
  cases rule <;> simp [detours, pairs_of_ne, hexpression, hlist, h]

namespace Draft

def detours (rule : Rule) (d : Draft) : Nat := d.close.shape.detours rule

theorem shape_close (d : Draft) :
    d.close.shape = ⟨d.kind, d.text?.map (·.text), d.children.toList.map Node.shape⟩ := by
  rw [Node.shape_eq]
  rfl

theorem detours_push (rule : Rule) (d : Draft) (n : Node) :
    (d.push n).detours rule =
      d.detours rule + n.shape.detours rule + childDetours rule d.kind n.kind := by
  have hkind : n.shape.kind = n.kind := by rw [Node.shape_eq]
  rw [detours, detours, shape_close, shape_close, toList_children_push, List.map_append,
    List.map_singleton, Shape.detours_concat, hkind]
  rfl

theorem detours_empty (rule : Rule) (kind : NodeKind) (line wanted : Nat) :
    (Draft.empty kind line wanted).detours rule = 0 := by
  rw [detours, shape_close]
  cases rule <;> simp [Shape.detours, empty, Shape.pairs, Shape.pairsAll]

end Draft

namespace State.Tally

variable {rule : Rule} {s t u : State} {k m n : Nat}

theorem trans (h : s.Tally rule k t m) (k' : t.Tally rule m u n) : s.Tally rule k u n := by
  unfold Tally at *
  omega

theorem add (h : s.Tally rule m t n) (k : Nat) : s.Tally rule (m + k) t (n + k) := by
  unfold Tally at *
  omega

theorem of_adds {tried : Rule → Prop} (h : Adds (Event.IsQuiet tried) s.log t.log)
    (hrule : ¬tried rule) (m : Nat) : s.Tally rule m t m := by
  obtain ⟨events, hlog, hevents⟩ := h
  have hnone : mismatches rule events = 0 := by
    refine List.countP_eq_zero.mpr fun e he hmismatch => ?_
    cases e with
    | backtracked other line =>
      obtain rfl : other = rule := by simpa [Event.isMismatchOf] using hmismatch
      exact hrule (hevents _ he)
    | _ => simp [Event.isMismatchOf] at hmismatch
  rw [Tally, hlog, mismatches_append, hnone, Nat.zero_add]

theorem of_steps (h : s.Steps t) (m : Nat) : s.Tally rule m t m := by
  have hquiet : Adds (Event.IsQuiet fun _ => False) s.log t.log :=
    h.adds.mono fun _ => Event.isQuiet_of_isMinor
  exact of_adds hquiet id m

theorem of_record {e : Event} (h : e.isMismatchOf rule = false) (m : Nat) :
    s.Tally rule m (s.record e) m := by
  simp [Tally, mismatches, State.record, h]

end State.Tally

end MiniC
