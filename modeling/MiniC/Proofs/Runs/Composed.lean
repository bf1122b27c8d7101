import MiniC.Proofs.Parsing.Production

namespace MiniC

/-- By reading, by making leaves, by noting a second qualifier and by allocating nodes one comes from
one state to the other. -/
inductive State.Steps : State → State → Prop where
  | refl (s : State) : Steps s s
  | trans {s t u : State} : Steps s t → Steps t u → Steps s u
  | skip (s : State) : Steps s s.skip
  | duplicate (s : State) (found : TokenKind) (line : Nat) :
      Steps s (s.record (.duplicateQualifier found line))
  | reserve (s : State) {requests : List Request} : (∀ r ∈ requests, r.IsForNodes) →
      Steps s (s.withArena (s.arena.reserveAll requests))
  | leaf (s : State) : Steps s s.takeLeaf.2

namespace State

theorem steps_openNode (s : State) (kind : NodeKind) (wanted : Nat) :
    s.Steps (s.openNode kind wanted).2 := .reserve s (Draft.isForNodes_requests _)

theorem steps_append (s : State) (d : Draft) (child : Node) : s.Steps (s.append d child).2 :=
  .reserve s d.isForNodes_growth

theorem steps_addLeaf (s : State) (d : Draft) : s.Steps (s.addLeaf d).2 :=
  (Steps.leaf s).trans (steps_append _ d _)

theorem steps_stars (d : Draft) (s : State) : s.Steps (Parser.stars d s).2 := by
  fun_induction Parser.stars d s with
  | case1 d s _ pushed ih => exact (s.steps_addLeaf d).trans ih
  | case2 d s _ => exact .refl s

theorem steps_nodeOf (s : State) (kind : NodeKind) (line : Nat) (children : List Node) :
    s.Steps (Parser.nodeOf kind line children s).final := by
  have fold (start : Draft × State) :
      start.2.Steps (children.foldl (fun r child => r.2.append r.1 child) start).2 := by
    induction children generalizing start with
    | nil => exact .refl _
    | cons c cs ih => exact (start.2.steps_append start.1 c).trans (ih _)
  let d := Draft.empty kind line children.length
  exact (Steps.reserve s d.isForNodes_requests).trans
    (fold (d, s.withArena (s.arena.reserveAll d.requests)))

end State

/-- The event that is written when a parse is given up for a reason. -/
inductive Event.Tells : Event → ParseError → Prop where
  | limitReached (rule : Rule) (line : Nat) : Tells (.limitReached rule line) (.nestingTooDeep line)
  | unsupported (construct : Construct) (line : Nat) :
      Tells (.unsupported construct line) (.unsupported construct line)
  | unitRejected (found : TokenKind) (line : Nat) :
      Tells (.unitRejected (.unrecognized found line)) (.unrecognized found line)

namespace Parser

/-- The run of the parser from the state, in which no rules are tried but `tried`. -/
inductive Composed (limit : Option Nat) (tried : Rule → Prop) :
    {α : Type} → Parser α → State → Prop where
  | matched {α : Type} {p : Parser α} {s t : State} {a : α} : p s = ⟨.matched a, t⟩ → s.Steps t →
      Composed limit tried p s
  | mismatch {α : Type} {p : Parser α} {s t : State} : p s = ⟨.mismatch, t⟩ → s.Steps t →
      Composed limit tried p s
  | fatal {α : Type} {p : Parser α} {s : State} {event : Event} {e : ParseError} :
      p s = ⟨.fatal e, s.record event⟩ → event.Tells e → Composed limit tried p s
  | bind {α β : Type} {p : Parser α} {f : α → Parser β} {s : State} : Composed limit tried p s →
      (∀ a t, p s = ⟨.matched a, t⟩ → Composed limit tried (f a) t) →
      Composed limit tried (p >>= f) s
  | orElse {α : Type} {p q : Parser α} {s : State} : Composed limit tried p s →
      (∀ t, p s = ⟨.mismatch, t⟩ → Composed limit tried q t) → Composed limit tried (p.orElse q) s
  | rule {rule : Rule} {p : Parser Node} {s : State} : tried rule →
      Composed limit tried p (s.enter rule) → Composed limit tried (tryRule limit rule p) s
  | as {α : Type} {p : Parser α} {s : State} (q : Parser α) : p s = q s →
      Composed limit tried q s → Composed limit tried p s

class IsComposed {α : Type} (limit : Option Nat) (tried : Rule → Prop) (p : Parser α) : Prop where
  composed (s : State) : Composed limit tried p s

section Grammar

variable {α β : Type} {limit : Option Nat} {tried : Rule → Prop} {p : Parser α} {f : α → Parser β}
  {d : Draft}

instance [hp : IsComposed limit tried p] [hf : ∀ a, IsComposed limit tried (f a)] :
    IsComposed limit tried (p >>= f) :=
  ⟨fun s => .bind (hp.composed s) fun a t _ => (hf a).composed t⟩

instance {q : Parser α} [hp : IsComposed limit tried p] [hq : IsComposed limit tried q] :
    IsComposed limit tried (p.orElse q) :=
  ⟨fun s => .orElse (hp.composed s) fun t _ => hq.composed t⟩

theorem IsComposed.of_step {g : State → α × State} (h : ∀ s : State, s.Steps (g s).2) :
    IsComposed limit tried (step g) := ⟨fun s => .matched rfl (h s)⟩

theorem IsComposed.of_rule {rule : Rule} {p : Parser Node} [hp : IsComposed limit tried p]
    (hrule : tried rule) : IsComposed limit tried (tryRule limit rule p) :=
  ⟨fun s => .rule hrule (hp.composed (s.enter rule))⟩

instance (a : α) : IsComposed limit tried (pure a : Parser α) := ⟨fun s => .matched rfl (.refl s)⟩

instance : IsComposed limit tried nextKind := .of_step .refl

instance : IsComposed limit tried nextLine := .of_step .refl

instance (kind : NodeKind) (wanted : Nat) : IsComposed limit tried (openNode kind wanted) :=
  .of_step fun s => s.steps_openNode kind wanted

instance (child : Node) : IsComposed limit tried (append d child) :=
  .of_step fun s => s.steps_append d child

theorem composed_skip {s : State} (hp : Composed limit tried p s.skip) (q : Parser α)
    (h : q s = p s.skip) : Composed limit tried q s := by
  have hskip : Composed limit tried (step fun s => ((), s.skip)) s := .matched rfl (.skip s)
  refine .as (step (fun s => ((), s.skip)) >>= fun _ => p) h (.bind hskip fun a t ht => ?_)
  obtain ⟨-, rfl⟩ := step_eq_matched ht
  exact hp

instance (kind : TokenKind) : IsComposed limit tried (expect kind) := by
  refine ⟨fun s => ?_⟩
  by_cases h : s.nextKind = kind
  · exact .matched (if_pos h) (.skip s)
  · exact .mismatch (if_neg h) (.refl s)

instance (property : TokenKind → Bool) : IsComposed limit tried (requiredLeaf property d) := by
  refine ⟨fun s => ?_⟩
  by_cases h : property s.nextKind = true
  · exact .matched (if_pos h) (s.steps_addLeaf d)
  · exact .mismatch (if_neg h) (.refl s)

instance (property : TokenKind → Bool) : IsComposed limit tried (optionalLeaf property d) := by
  refine ⟨fun s => ?_⟩
  by_cases h : property s.nextKind = true
  · exact .matched (if_pos h) (s.steps_addLeaf d)
  · exact .matched (if_neg h) (.refl s)

instance (construct : Construct) :
    IsComposed limit tried (refuseConstruct construct : Parser α) :=
  ⟨fun s => .fatal rfl (.unsupported construct s.nextLine)⟩

instance (kind : NodeKind) (line : Nat) (children : List Node) :
    IsComposed limit tried (nodeOf kind line children) :=
  ⟨fun s => .matched rfl (s.steps_nodeOf kind line children)⟩

instance : IsComposed limit tried noQualifier := by
  refine ⟨fun s => ?_⟩
  by_cases h : s.nextKind.isQualifier = true
  · exact .mismatch (if_pos h) (.duplicate s _ _)
  · exact .matched (if_neg h) (.refl s)

instance (qualified : Bool) : IsComposed limit tried (innerQualifier qualified d) := by
  unfold innerQualifier
  split <;> infer_instance

instance : IsComposed limit tried (step (stars d)) := .of_step (State.steps_stars d)

instance : IsComposed limit tried (outerQualifier d) := by
  refine ⟨fun s => ?_⟩
  by_cases h : s.nextKind.isQualifier = true
  · exact .as _ (if_pos h) (IsComposed.composed s)
  · exact .matched (if_neg h) (.refl s)

instance : IsComposed limit tried (pointer d) := by
  refine ⟨fun s => ?_⟩
  by_cases h : s.nextKind = .star
  · exact .as _ (if_pos h) (IsComposed.composed s)
  · exact .matched (if_neg h) (.refl s)

set_option synthInstance.maxSize 512 in
theorem isComposed_typeName (h : tried .type) : IsComposed limit tried (typeName limit) :=
  .of_rule h

instance : IsComposed limit tried identifier := by
  refine ⟨fun s => ?_⟩
  by_cases h : s.nextKind = .ident
  · exact .matched (if_pos h) (.leaf s)
  · exact .mismatch (if_neg h) (.refl s)

instance : IsComposed limit tried refusedDeclaration := by
  refine ⟨fun s => ?_⟩
  rcases h : Construct.ofDeclaration? s.nextKind with _ | construct
  · exact .mismatch (by rw [refusedDeclaration, h]) (.refl s)
  · exact .as (refuseConstruct construct) (by rw [refusedDeclaration, h]) (IsComposed.composed s)

instance [IsComposed limit tried (typeName limit)] : IsComposed limit tried (parameter limit d) := by
  unfold parameter
  infer_instance

instance [IsComposed limit tried (typeName limit)] :
    IsComposed limit tried (parameters limit d) := by
  refine ⟨fun s => ?_⟩
  induction hn : s.left using Nat.strongRecOn generalizing d s with
  | ind n ih =>
    subst hn
    refine .as _ (parameters_eq limit d s) (.bind (IsComposed.composed s) fun d' t ht => ?_)
    have hlt : t.left < s.left := (consumes_parameter limit d).lt ht
    by_cases hclose : t.nextKind = .rParen
    · exact .matched (if_pos hclose) (.refl t)
    by_cases hcomma : t.nextKind = .comma
    · have hskip : t.skip.left < t.left := State.left_skip_lt (by simp [hcomma])
      exact composed_skip (ih _ (Nat.lt_trans hskip hlt) t.skip rfl) _
        (by rw [if_neg hclose, if_pos hcomma])
    · exact .mismatch (by rw [if_neg hclose, if_neg hcomma]) (.refl t)

instance [IsComposed limit tried (typeName limit)] :
    IsComposed limit tried (someParameters limit d) := by
  refine ⟨fun s => ?_⟩
  by_cases h : s.nextKind = .rParen
  · exact .matched (if_pos h) (.refl s)
  · exact .as _ (if_neg h) (IsComposed.composed s)

abbrev anyRule : Rule → Prop := fun _ => True

instance : IsComposed limit anyRule (typeName limit) := isComposed_typeName trivial

set_option synthInstance.maxSize 512 in
instance : IsComposed limit anyRule (variableDeclaration limit) := .of_rule trivial

set_option synthInstance.maxSize 512 in
instance : IsComposed limit anyRule (variableDefinition limit) := .of_rule trivial

instance : IsComposed limit anyRule (parameterList limit) := .of_rule trivial

set_option synthInstance.maxSize 512 in
instance : IsComposed limit anyRule (signature limit) := by
  unfold signature
  infer_instance

instance : IsComposed limit anyRule (functionDeclaration limit) := .of_rule trivial

instance : IsComposed limit anyRule (cast limit) := .of_rule trivial

/-- Operands are looked for only behind what opens an expression. -/
theorem composed_expression {s : State}
    (h : ∀ (d : Draft) (t : State), t.left ≤ s.left → Composed limit anyRule (operands limit d) t) :
    Composed limit anyRule (expression limit) s := by
  rw [expression_eq]
  refine .rule trivial (.bind (IsComposed.composed _) fun d t ht => ?_)
  have hk := (keeps_openNode _ _).of_eq ht
  exact .bind (h d t hk.left_le) fun _ u _ => IsComposed.composed u

instance : IsComposed limit anyRule (operands limit d) := by
  refine ⟨fun s => ?_⟩
  induction hn : s.left using Nat.strongRecOn generalizing d s with
  | ind n ih =>
    subst hn
    have ih (d : Draft) (t : State) (ht : t.left < s.left) := ih t.left ht t (d := d) rfl
    have heq := operands_eq limit d s
    split at heq
    · exact .matched heq (.refl s)
    · exact .mismatch heq (.refl s)
    · next hp =>
      have hlt := State.left_addLeaf_lt d (TokenKind.ne_eof_of_operand hp)
      have hadd : Composed limit anyRule (step (·.addLeaf d)) s := .matched rfl (s.steps_addLeaf d)
      refine .as (step (·.addLeaf d) >>= operands limit) heq (.bind hadd fun d' t ht => ?_)
      obtain ⟨rfl, rfl⟩ := step_eq_matched ht
      exact ih _ _ hlt
    · next hp =>
      have hlt : s.skip.left < s.left := State.left_skip_lt (TokenKind.ne_eof_of_group hp)
      refine composed_skip ?_ _ heq
      refine .bind (.bind (.orElse (IsComposed.composed _) fun t ht => ?_) fun _ t _ =>
        IsComposed.composed t) fun d' t ht => ih d' t ?_
      · have htl := ((keeps_cast limit).of_eq ht).left_le
        exact .bind (composed_expression fun d u hu => ih d u (by omega)) fun _ u _ =>
          IsComposed.composed u
      · exact Nat.lt_of_le_of_lt ((keeps_inner limit d).of_eq ht).left_le hlt

instance : IsComposed limit anyRule (expression limit) :=
  ⟨fun _ => composed_expression fun _ t _ => IsComposed.composed t⟩

instance : IsComposed limit anyRule (simpleStatement limit d) := by
  refine ⟨fun s => ?_⟩
  rcases h : Construct.ofStatement? s.nextKind with _ | construct
  · refine .as _ (simpleStatement_of_plain d h) ?_
    unfold returnLeaf
    exact IsComposed.composed s
  · exact .as (refuseConstruct construct) (by rw [simpleStatement, h]) (IsComposed.composed s)

theorem composed_statement {s : State}
    (h : ∀ (d : Draft) (t : State), t.left < s.left → Composed limit anyRule (compound limit d) t) :
    Composed limit anyRule (statement limit) s := by
  rw [statement_eq]
  refine .rule trivial (.bind (IsComposed.composed _) fun d t ht => ?_)
  have htl := ((keeps_openNode _ _).of_eq ht).left_le
  refine .bind ?_ fun _ u _ => IsComposed.composed u
  by_cases hb : t.nextKind = .lBrace
  · have hlt : t.skip.left < t.left := State.left_skip_lt (by simp [hb])
    exact composed_skip (h d t.skip (Nat.lt_of_lt_of_le hlt htl)) _ (if_pos hb)
  · exact .as _ (if_neg hb) (IsComposed.composed t)

instance : IsComposed limit anyRule (compound limit d) := by
  refine ⟨fun s => ?_⟩
  induction hn : s.left using Nat.strongRecOn generalizing d s with
  | ind n ih =>
    subst hn
    have ih (d : Draft) (t : State) (ht : t.left < s.left) := ih t.left ht t (d := d) rfl
    have heq := compound_eq limit d s
    split at heq
    · exact .matched heq (.skip s)
    · refine .as _ heq (.bind (.bind (composed_statement ih) fun _ t _ => IsComposed.composed t) ?_)
      exact fun d' t ht =>
        ih d' t (((consumes_statement limit).andThen fun _ => reads_append _ _).lt ht)

instance : IsComposed limit anyRule (statement limit) :=
  ⟨fun _ => composed_statement fun _ t _ => IsComposed.composed t⟩

instance : IsComposed limit anyRule (statementParts limit d) := by
  refine ⟨fun s => ?_⟩
  by_cases hb : s.nextKind = .lBrace
  · exact composed_skip (IsComposed.composed s.skip) _ (if_pos hb)
  · exact .as _ (if_neg hb) (IsComposed.composed s)

instance : IsComposed limit anyRule (bodyItem limit) := by
  unfold bodyItem
  infer_instance

instance : IsComposed limit anyRule (bodyItems limit d) := by
  refine ⟨fun s => ?_⟩
  induction hn : s.left using Nat.strongRecOn generalizing d s with
  | ind n ih =>
    subst hn
    have heq := bodyItems_eq limit d s
    split at heq
    · exact .matched heq (.refl s)
    · refine .as _ heq (.bind (IsComposed.composed s) fun d' t ht => ih t.left ?_ t rfl)
      exact ((consumes_bodyItem limit).andThen fun _ => reads_append _ _).lt ht

instance : IsComposed limit anyRule (functionBody limit) := .of_rule trivial

set_option synthInstance.maxSize 512 in
instance : IsComposed limit anyRule (functionDefinition limit) := .of_rule trivial

instance : IsComposed limit anyRule (topLevel limit) := by
  unfold topLevel
  infer_instance

instance : IsComposed limit anyRule (rejectUnit : Parser α) :=
  ⟨fun s => .fatal rfl (.unitRejected s.nextKind s.nextLine)⟩

instance : IsComposed limit anyRule (unitItems limit d) := by
  refine ⟨fun s => ?_⟩
  induction hn : s.left using Nat.strongRecOn generalizing d s with
  | ind n ih =>
    subst hn
    have heq := unitItems_eq limit d s
    split at heq
    · exact .matched heq (.refl s)
    · refine .as _ heq (.bind (IsComposed.composed s) fun d' t ht => ih t.left ?_ t rfl)
      have hitem := (consumes_topLevel limit).orElse consumes_rejectUnit
      exact (hitem.andThen fun _ => reads_append _ _).lt ht

instance (p : Production) : IsComposed limit anyRule (p.parser limit) := by
  cases p with
  | ofRule rule => cases rule <;> unfold Production.parser <;> infer_instance
  | identifier => exact inferInstanceAs (IsComposed limit anyRule identifier)
  | refusedDeclaration => exact inferInstanceAs (IsComposed limit anyRule refusedDeclaration)

end Grammar

end Parser

end MiniC
