import MiniC.Proofs.Runs.Trail

namespace MiniC

/-- For how many children nodes of the kind are made. -/
def NodeKind.wanted : NodeKind → Nat
  | .token _ => 0
  | .statement | .varDecl | .varDef => 2
  | .funcDecl => 3
  | _ => 4

/-- An invariant of the nodes that are made in parses with some limit of nesting. Of a leaf it may
depend on what state is left behind by making it: `upTo` holds of the states before some end. -/
structure NodeInvariant where
  limit : Option Nat
  upTo : State → Prop
  node : Node → Prop
  draft : NodeKind → Draft → Prop
  upTo_of_trail : ∀ {s t : State} {leaves : List Node} {deposits : List Deposit},
    s.Trail leaves deposits t → upTo t → upTo s
  leaf : ∀ s : State, upTo s.takeLeaf.2 → node s.takeLeaf.1
  empty : ∀ (kind : NodeKind) (line : Nat), draft kind (Draft.empty kind line kind.wanted)
  push : ∀ {kind : NodeKind} {d : Draft} {n : Node}, draft kind d → node n → draft kind (d.push n)
  close : ∀ {kind : NodeKind} {d : Draft}, draft kind d → node d.close
  kind_eq : ∀ {kind : NodeKind} {d : Draft}, draft kind d → d.kind = kind
  toCast : ∀ {n : Node}, node n → n.kind = .type → node n.toCast

namespace NodeInvariant

open MiniC.Parser

variable {α β : Type} {M : NodeInvariant} {P : α → Prop} {Q : β → Prop} {kind : NodeKind}
variable {p q : Parser α} {f : α → Parser β} {d : Draft} {n : Node} {s t : State}

theorem upTo_of_run [hp : IsComposed M.limit anyRule p] {a : α} (h : p s = ⟨.matched a, t⟩)
    (ht : M.upTo t) : M.upTo s := by
  obtain ⟨leaves, deposits, htrail⟩ := (hp.composed s).exists_trail
  rw [h] at htrail
  exact M.upTo_of_trail htrail ht

/-- Whatever the parser matches from the state on has the property. -/
def YieldsAt (M : NodeInvariant) (P : α → Prop) (p : Parser α) (s : State) : Prop :=
  ∀ a t, p s = ⟨.matched a, t⟩ → M.upTo t → P a

def Yields (M : NodeInvariant) (P : α → Prop) (p : Parser α) : Prop := ∀ s, M.YieldsAt P p s

namespace YieldsAt

theorem of_eq (h : p s = q t) (hq : M.YieldsAt P q t) : M.YieldsAt P p s :=
  fun a u hp => hq a u (h.symm.trans hp)

theorem of_matched {a : α} (h : p s = ⟨.matched a, t⟩) (ha : M.upTo t → P a) :
    M.YieldsAt P p s := by
  intro b u hb hu
  obtain ⟨hab, rfl⟩ := Result.mk.inj (h.symm.trans hb)
  obtain rfl := Outcome.matched.inj hab
  exact ha hu

theorem of_ne (h : ∀ a t, p s ≠ ⟨.matched a, t⟩) : M.YieldsAt P p s :=
  fun a t ha => absurd ha (h a t)

/-- What is done afterwards does not come after the end if its own end does not. -/
theorem bind [∀ a, IsComposed M.limit anyRule (f a)] (hp : M.YieldsAt P p s)
    (h : ∀ a t, p s = ⟨.matched a, t⟩ → P a → M.YieldsAt Q (f a) t) :
    M.YieldsAt Q (p >>= f) s := by
  intro b u hb hu
  obtain ⟨a, t, ht, hfa⟩ := bind_eq_matched hb
  exact h a t ht (hp a t ht (upTo_of_run hfa hu)) b u hfa hu

theorem orElse (hp : M.YieldsAt P p s)
    (hq : ∀ t, p s = ⟨.mismatch, t⟩ → M.YieldsAt P q t) : M.YieldsAt P (p.orElse q) s := by
  intro a u ha
  rcases orElse_eq_matched ha with ha | ⟨t, ht, ha⟩
  · exact hp a u ha
  · exact hq t ht a u ha

theorem tryRule {limit : Option Nat} {rule : Rule} (hp : M.YieldsAt P p (s.enter rule)) :
    M.YieldsAt P (Parser.tryRule limit rule p) s := by
  intro a t ha ht
  unfold Parser.tryRule at ha
  split at ha
  · simp [State.refuse] at ha
  · rcases hr : p (s.enter rule) with ⟨b | _ | e, u⟩ <;> rw [hr] at ha
    · obtain ⟨hab, rfl⟩ := Result.mk.inj ha
      obtain rfl := Outcome.matched.inj hab
      exact hp b u hr (M.upTo_of_trail (.move u _ _ _) ht)
    · simp [State.leave] at ha
    · simp [State.leave] at ha

end YieldsAt

namespace Yields

theorem andThen [∀ a, IsComposed M.limit anyRule (f a)] (hp : M.Yields P p)
    (hf : ∀ a, P a → M.Yields Q (f a)) : M.Yields Q (p >>= f) :=
  fun s => (hp s).bind fun a t _ ha => hf a ha t

theorem orElse (hp : M.Yields P p) (hq : M.Yields P q) : M.Yields P (p.orElse q) :=
  fun s => (hp s).orElse fun t _ => hq t

theorem tryRule {limit : Option Nat} (hp : M.Yields P p) (rule : Rule) :
    M.Yields P (Parser.tryRule limit rule p) := fun _ => (hp _).tryRule

theorem ite {b : State → Prop} [DecidablePred b] (hp : M.Yields P p) (hq : M.Yields P q) :
    M.Yields P fun s => if b s then p s else q s := by
  intro s
  by_cases h : b s
  · exact .of_eq (if_pos h) (hp s)
  · exact .of_eq (if_neg h) (hq s)

end Yields

theorem yields_pure {a : α} (h : P a) : M.Yields P (pure a) :=
  fun _ => .of_matched rfl fun _ => h

theorem yields_step {g : State → α × State} (h : ∀ s, M.upTo (g s).2 → P (g s).1) :
    M.Yields P (step g) := fun s => .of_matched rfl (h s)

theorem yields_any (p : Parser α) : M.Yields (fun _ => True) p := fun _ _ _ _ _ => trivial

theorem yields_openNode (kind : NodeKind) : M.Yields (M.draft kind) (openNode kind kind.wanted) :=
  yields_step fun s _ => M.empty kind s.nextLine

theorem yields_append (h : M.draft kind d) (hn : M.node n) :
    M.Yields (M.draft kind) (append d n) := yields_step fun _ _ => M.push h hn

theorem draft_addLeaf (h : M.draft kind d) (s : State) (hs : M.upTo (s.addLeaf d).2) :
    M.draft kind (s.addLeaf d).1 := by
  obtain ⟨leaves, deposits, htrail⟩ := (State.steps_append s.takeLeaf.2 d s.takeLeaf.1).exists_trail
  exact M.push h (M.leaf s (M.upTo_of_trail htrail hs))

theorem yields_addLeaf (h : M.draft kind d) : M.Yields (M.draft kind) (step (·.addLeaf d)) :=
  yields_step (draft_addLeaf h)

theorem yields_mismatch : M.Yields P fun s => ⟨.mismatch, s⟩ := fun _ => .of_ne (by simp)

theorem yields_requiredLeaf (property : TokenKind → Bool) (h : M.draft kind d) :
    M.Yields (M.draft kind) (requiredLeaf property d) := (yields_addLeaf h).ite yields_mismatch

theorem yields_optionalLeaf (property : TokenKind → Bool) (h : M.draft kind d) :
    M.Yields (M.draft kind) (optionalLeaf property d) := (yields_addLeaf h).ite (yields_pure h)

theorem yields_nodeOf (line : Nat) {children : List Node}
    (hlength : children.length = kind.wanted) (h : ∀ c ∈ children, M.node c) :
    M.Yields M.node (nodeOf kind line children) := by
  have fold (start : Draft × State) (hd : M.draft kind start.1) :
      M.draft kind (children.foldl (fun r child => r.2.append r.1 child) start).1 := by
    clear hlength
    induction children generalizing start with
    | nil => exact hd
    | cons c cs ih =>
      exact ih (fun x hx => h x (List.mem_cons_of_mem _ hx)) _ (M.push hd (h c List.mem_cons_self))
  refine fun s => .of_matched rfl fun _ => M.close (fold _ ?_)
  rw [hlength]
  exact M.empty kind line

theorem yields_innerQualifier (qualified : Bool) (h : M.draft kind d) :
    M.Yields (M.draft kind) (innerQualifier qualified d) := by
  unfold innerQualifier
  split
  · exact (yields_any noQualifier).andThen fun _ _ => yields_pure h
  · exact yields_optionalLeaf _ h

theorem yields_stars (h : M.draft kind d) : M.Yields (M.draft kind) (step (stars d)) := by
  refine yields_step fun s hs => ?_
  fun_induction stars d s with
  | case1 d s _ pushed ih =>
    obtain ⟨leaves, deposits, htrail⟩ := (State.steps_stars pushed.1 pushed.2).exists_trail
    exact ih (draft_addLeaf h s (M.upTo_of_trail htrail hs)) hs
  | case2 => exact h

theorem yields_outerQualifier (h : M.draft kind d) : M.Yields (M.draft kind) (outerQualifier d) := by
  refine Yields.ite ((yields_requiredLeaf _ h).andThen fun _ hr => ?_) (yields_pure h)
  exact (yields_any noQualifier).andThen fun _ _ => yields_pure hr

theorem yields_pointer (h : M.draft kind d) : M.Yields (M.draft kind) (pointer d) :=
  ((yields_stars h).andThen fun _ hr => yields_outerQualifier hr).ite (yields_pure h)

set_option synthInstance.maxSize 512 in
/-- Types keep their kind until they become casts. -/
theorem yields_typeName : M.Yields (fun n => M.node n ∧ n.kind = .type) (typeName M.limit) := by
  refine Yields.tryRule ?_ .type
  refine (yields_openNode .type).andThen fun _ h => ?_
  refine (yields_optionalLeaf _ h).andThen fun _ h => ?_
  refine (yields_any nextKind).andThen fun _ _ => ?_
  refine (yields_optionalLeaf _ h).andThen fun _ h => ?_
  refine (yields_optionalLeaf _ h).andThen fun _ h => ?_
  refine (yields_requiredLeaf _ h).andThen fun _ h => ?_
  refine (yields_innerQualifier _ h).andThen fun _ h => ?_
  exact (yields_pointer h).andThen fun _ h => yields_pure ⟨M.close h, M.kind_eq h⟩

theorem yields_identifier : M.Yields M.node identifier :=
  (yields_step fun s hs => M.leaf s hs).ite yields_mismatch

theorem yields_variableDeclaration : M.Yields M.node (variableDeclaration M.limit) := by
  refine Yields.tryRule ?_ .variableDeclaration
  refine (yields_any nextLine).andThen fun _ _ => ?_
  refine (yields_any (expect .kwExtern)).andThen fun _ _ => ?_
  refine yields_typeName.andThen fun _ hty => ?_
  refine yields_identifier.andThen fun _ hname => ?_
  refine (yields_any (expect .semicolon)).andThen fun _ _ => ?_
  exact yields_nodeOf _ rfl (by simpa using ⟨hty.1, hname⟩)

theorem yields_variableDefinition : M.Yields M.node (variableDefinition M.limit) := by
  refine Yields.tryRule ?_ .variableDefinition
  refine (yields_any nextLine).andThen fun _ _ => ?_
  refine yields_typeName.andThen fun _ hty => ?_
  refine yields_identifier.andThen fun _ hname => ?_
  refine (yields_any (expect .semicolon)).andThen fun _ _ => ?_
  exact yields_nodeOf _ rfl (by simpa using ⟨hty.1, hname⟩)

theorem yields_parameter (h : M.draft kind d) :
    M.Yields (M.draft kind) (parameter M.limit d) := by
  refine yields_typeName.andThen fun _ hty => ?_
  refine yields_identifier.andThen fun _ hname => ?_
  exact (yields_append h hty.1).andThen fun _ h => yields_append h hname

theorem yields_parameters (h : M.draft kind d) :
    M.Yields (M.draft kind) (parameters M.limit d) := by
  intro s
  induction hn : s.left using Nat.strongRecOn generalizing d s with
  | ind n ih =>
    subst hn
    intro d' t hd' ht
    rw [parameters_eq] at hd'
    obtain ⟨d₁, u, hu, hrest⟩ := bind_eq_matched hd'
    split at hrest
    · obtain ⟨heq, rfl⟩ := Result.mk.inj hrest
      obtain rfl := Outcome.matched.inj heq
      exact yields_parameter h s _ _ hu ht
    · split at hrest
      · next hcomma =>
        have hlt : u.skip.left < s.left :=
          Nat.lt_trans (State.left_skip_lt (by simp [hcomma])) ((consumes_parameter _ d).lt hu)
        have hskip : M.upTo u := M.upTo_of_trail (.move u _ _ _) (upTo_of_run hrest ht)
        exact ih _ hlt (yields_parameter h s _ _ hu hskip) u.skip rfl d' t hrest ht
      · simp at hrest

theorem yields_parameterList : M.Yields M.node (parameterList M.limit) := by
  refine Yields.tryRule ?_ .parameterList
  refine (yields_openNode .paramList).andThen fun d h => ?_
  have hsome : M.Yields (M.draft .paramList) (someParameters M.limit d) :=
    (yields_pure h).ite (yields_parameters h)
  exact hsome.andThen fun _ h => yields_pure (M.close h)

set_option synthInstance.maxSize 512 in
theorem yields_signature :
    M.Yields (fun ns => ns.length = 3 ∧ ∀ n ∈ ns, M.node n) (signature M.limit) := by
  refine yields_typeName.andThen fun _ hty => ?_
  refine yields_identifier.andThen fun _ hname => ?_
  refine (yields_any (expect .lParen)).andThen fun _ _ => ?_
  refine yields_parameterList.andThen fun _ hlist => ?_
  refine (yields_any (expect .rParen)).andThen fun _ _ => ?_
  exact yields_pure ⟨rfl, by simpa using ⟨hty.1, hname, hlist⟩⟩

theorem yields_functionDeclaration : M.Yields M.node (functionDeclaration M.limit) := by
  refine Yields.tryRule ?_ .functionDeclaration
  refine (yields_any nextLine).andThen fun _ _ => ?_
  refine yields_signature.andThen fun _ hparts => ?_
  refine (yields_any (expect .semicolon)).andThen fun _ _ => ?_
  exact yields_nodeOf _ hparts.1 hparts.2

theorem yields_cast : M.Yields M.node (cast M.limit) := by
  refine Yields.tryRule ?_ .cast
  refine yields_typeName.andThen fun _ hty => ?_
  exact (yields_any (expect .rParen)).andThen fun _ _ => yields_pure (M.toCast hty.1 hty.2)

/-- From the state on, operands keep the invariant. -/
def OperandsYield (M : NodeInvariant) (s : State) : Prop :=
  ∀ (kind : NodeKind) (d : Draft), M.draft kind d →
    M.YieldsAt (M.draft kind) (operands M.limit d) s

theorem yieldsAt_expression (h : ∀ u : State, u.left ≤ s.left → M.OperandsYield u) :
    M.YieldsAt M.node (expression M.limit) s := by
  rw [expression_eq]
  refine .tryRule ((yields_openNode .expression _).bind fun d u hu hd => ?_)
  have hle : u.left ≤ s.left := (reads_openNode _ _).le (s := s.enter .expression) hu
  exact (h u hle .expression d hd).bind fun _ t _ hd' => yields_pure (M.close hd') t

theorem operandsYield (M : NodeInvariant) (s : State) : M.OperandsYield s := by
  induction hn : s.left using Nat.strongRecOn generalizing s with
  | ind n ih =>
    subst hn
    have ih (t : State) (ht : t.left < s.left) := ih t.left ht t rfl
    intro kind d hd
    have heq := operands_eq M.limit d s
    split at heq
    · exact .of_matched heq fun _ => hd
    · exact .of_ne (by simp [heq])
    · next hp =>
      have hlt := State.left_addLeaf_lt d (TokenKind.ne_eof_of_operand hp)
      intro d' t hd' ht
      have hrun := heq.symm.trans hd'
      exact ih _ hlt kind _ (draft_addLeaf hd s (upTo_of_run hrun ht)) d' t hrun ht
    · next hp =>
      have hlt := State.left_skip_lt (TokenKind.ne_eof_of_group hp)
      refine .of_eq heq (.bind (P := M.draft kind) (.bind (P := M.node) ?_ fun inner t _ hinner =>
        yields_append hd hinner t) fun d' t ht hd' => ih t ?_ kind d' hd')
      · refine (yields_cast s.skip).orElse fun t ht => ?_
        have htl := ((keeps_cast M.limit).of_eq ht).left_le
        refine (yieldsAt_expression fun u hu => ih u (by omega)).bind fun e u _ he => ?_
        exact (yields_any (expect .rParen)).andThen (fun _ _ => yields_pure he) u
      · exact Nat.lt_of_le_of_lt ((keeps_inner M.limit d).of_eq ht).left_le hlt

theorem yields_expression : M.Yields M.node (expression M.limit) :=
  fun _ => yieldsAt_expression fun u _ => M.operandsYield u

theorem yields_simpleStatement (h : M.draft kind d) :
    M.Yields (M.draft kind) (simpleStatement M.limit d) := by
  intro s
  rcases hc : Construct.ofStatement? s.nextKind with _ | construct
  · refine .of_eq (simpleStatement_of_plain d hc) (Yields.andThen (yields_optionalLeaf _ h) ?_ s)
    intro d' h
    refine yields_expression.andThen fun _ he => ?_
    exact (yields_any (expect .semicolon)).andThen fun _ _ => yields_append h he
  · exact .of_ne (by simp [simpleStatement, hc, refuseConstruct])

def CompoundYields (M : NodeInvariant) (s : State) : Prop :=
  ∀ (kind : NodeKind) (d : Draft), M.draft kind d →
    M.YieldsAt (M.draft kind) (compound M.limit d) s

theorem yieldsAt_statement (h : ∀ u : State, u.left < s.left → M.CompoundYields u) :
    M.YieldsAt M.node (statement M.limit) s := by
  rw [statement_eq]
  refine .tryRule ((yields_openNode .statement _).bind fun d u hu hd => ?_)
  have hle : u.left ≤ s.left := (reads_openNode _ _).le (s := s.enter .statement) hu
  refine .bind (P := M.draft .statement) ?_ fun _ t _ hd' => yields_pure (M.close hd') t
  by_cases hb : u.nextKind = .lBrace
  · have hlt := State.left_skip_lt (s := u) (by simp [hb])
    exact .of_eq (if_pos hb) (h u.skip (by omega) .statement d hd)
  · exact .of_eq (if_neg hb) (yields_simpleStatement hd u)

theorem compoundYields (M : NodeInvariant) (s : State) : M.CompoundYields s := by
  induction hn : s.left using Nat.strongRecOn generalizing s with
  | ind n ih =>
    subst hn
    have ih (t : State) (ht : t.left < s.left) := ih t.left ht t rfl
    intro kind d hd
    have heq := compound_eq M.limit d s
    split at heq
    · exact .of_matched heq fun _ => hd
    · refine .of_eq heq (.bind (P := M.draft kind) ((yieldsAt_statement ih).bind fun inner t _ hinner =>
        yields_append hd hinner t) fun d' t ht hd' => ih t ?_ kind d' hd')
      exact ((consumes_statement M.limit).andThen fun _ => reads_append _ _).lt ht

theorem yields_statement : M.Yields M.node (statement M.limit) :=
  fun _ => yieldsAt_statement fun u _ => M.compoundYields u

theorem yields_bodyItems (h : M.draft kind d) :
    M.Yields (M.draft kind) (bodyItems M.limit d) := by
  have hitem : M.Yields M.node (bodyItem M.limit) :=
    yields_variableDefinition.orElse yields_statement
  intro s
  induction hn : s.left using Nat.strongRecOn generalizing d s with
  | ind n ih =>
    subst hn
    have heq := bodyItems_eq M.limit d s
    split at heq
    · exact .of_matched heq fun _ => h
    · refine .of_eq heq (.bind (hitem.andThen (fun _ hi => yields_append h hi) s) fun d' t ht hd' =>
        ih t.left ?_ hd' t rfl)
      exact ((consumes_bodyItem M.limit).andThen fun _ => reads_append _ _).lt ht

theorem yields_functionBody : M.Yields M.node (functionBody M.limit) := by
  refine Yields.tryRule ?_ .functionBody
  refine (yields_openNode .statementList).andThen fun _ h => ?_
  exact (yields_bodyItems h).andThen fun _ h => yields_pure (M.close h)

theorem yields_functionDefinition : M.Yields M.node (functionDefinition M.limit) := by
  refine Yields.tryRule ?_ .functionDefinition
  refine (yields_any nextLine).andThen fun _ _ => ?_
  refine yields_signature.andThen fun parts hparts => ?_
  refine (yields_any (expect .lBrace)).andThen fun _ _ => ?_
  refine yields_functionBody.andThen fun body hbody => ?_
  refine (yields_any (expect .rBrace)).andThen fun _ _ => ?_
  refine yields_nodeOf _ (by simp [hparts.1, NodeKind.wanted]) fun c hc => ?_
  rcases List.mem_append.mp hc with hc | hc
  · exact hparts.2 c hc
  · rwa [List.mem_singleton.mp hc]

theorem yields_topLevel : M.Yields M.node (topLevel M.limit) := by
  have hrefused : M.Yields M.node refusedDeclaration :=
    fun _ => .of_ne fun _ _ => refusedDeclaration_ne_matched
  exact yields_variableDeclaration.orElse <| yields_variableDefinition.orElse <|
    yields_functionDeclaration.orElse <| yields_functionDefinition.orElse hrefused

theorem yields_unitItems (h : M.draft kind d) :
    M.Yields (M.draft kind) (unitItems M.limit d) := by
  have hitem : M.Yields M.node ((topLevel M.limit).orElse rejectUnit) :=
    yields_topLevel.orElse fun _ => .of_ne (by simp [rejectUnit])
  intro s
  induction hn : s.left using Nat.strongRecOn generalizing d s with
  | ind n ih =>
    subst hn
    have heq := unitItems_eq M.limit d s
    split at heq
    · exact .of_matched heq fun _ => h
    · refine .of_eq heq (.bind (hitem.andThen (fun _ hi => yields_append h hi) s) fun d' t ht hd' =>
        ih t.left ?_ hd' t rfl)
      have hconsumes := (consumes_topLevel M.limit).orElse consumes_rejectUnit
      exact (hconsumes.andThen fun _ => reads_append _ _).lt ht

/-- The invariant holds of every tree of a parse. -/
theorem yields_translationUnit : M.Yields M.node (translationUnit M.limit) := by
  intro s n t hn ht
  obtain ⟨d, u, hd, h⟩ | ⟨e, u, -, h⟩ := translationUnit_cases M.limit s
  · obtain ⟨heq, rfl⟩ := Result.mk.inj (h.symm.trans hn)
    obtain rfl := Outcome.matched.inj heq
    have hu : M.upTo u := M.upTo_of_trail (.move u _ _ _) ht
    exact M.close (yields_unitItems (M.empty .translationUnit s.nextLine) _ d u hd hu)
  · simp [h] at hn

end NodeInvariant

end MiniC
