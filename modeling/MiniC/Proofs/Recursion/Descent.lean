import MiniC.Proofs.Recursion.Progress

namespace MiniC

/-- Where a task stands in the order of the grammar. Before it has read something, a task calls only
for such as come earlier. -/
def Task.rank : Task → Nat
  | read => 0
  | loop .stars _ | production .identifier | production .refusedDeclaration => 1
  | production (.ofRule .type) => 2
  | production (.ofRule .variableDeclaration) | production (.ofRule .variableDefinition)
  | production (.ofRule .cast) | loop .parameters _ => 3
  | production (.ofRule .parameterList) | loop .operands _ => 4
  | production (.ofRule .functionDeclaration) | production (.ofRule .expression) => 5
  | production (.ofRule .statement) => 6
  | loop .compound _ | loop .bodyItems _ => 7
  | production (.ofRule .functionBody) => 8
  | production (.ofRule .functionDefinition) => 9
  | loop .unitItems _ => 10
  | unit => 11

theorem Task.rank_le (c : Task) : c.rank ≤ 11 := by
  unfold rank
  split <;> decide

open MiniC.Parser

theorem Loop.keeps_loop (limit : Option Nat) (l : Loop) (d : Draft) : Keeps (l.parser limit d) := by
  cases l with
  | unitItems => exact keeps_unitItems limit d
  | bodyItems => exact keeps_bodyItems limit d
  | compound => exact keeps_compound limit d
  | parameters => exact keeps_parameters limit d
  | stars => exact kept_stars d
  | operands => exact keeps_operands limit d

theorem Task.keeps_task (limit : Option Nat) {c : Task} (h : c ≠ .read) : Keeps (c.parser limit) := by
  cases c with
  | unit => exact keeps_translationUnit limit
  | production p => exact p.keeps_production limit
  | loop l d => exact l.keeps_loop limit d
  | read => exact absurd rfl h

/-- The call is for less than `rank` with `left` tokens left, and it reads no token where there is
none. -/
structure Call.Below (left rank : Nat) (a : Call) : Prop where
  lex : Prod.Lex (· < ·) (· < ·) (a.state.left, a.task.rank) (left, rank)
  inside : a.task = .read → a.state.nextKind ≠ .eof

/-- All calls of a plan that starts at `s` are below the bound. They are made where the reader comes
to from there before the end of the input, and there the plan ends as well. -/
structure Plan.Descends {α : Type} (limit : Option Nat) (left rank : Nat) (s : State) (p : Plan α) :
    Prop where
  below : ∀ a ∈ p.calls limit, a.Below left rank
  between : ∀ a ∈ p.calls limit, s.reader.Reaches a.state.reader
  reaches : s.reader.Reaches (p.run limit).final.reader

namespace Plan.Descends

variable {α β : Type} {limit : Option Nat} {left rank : Nat} {s : State}

theorem done {r : Result α} (h : s.reader.Reaches r.final.reader) :
    (Plan.done r).Descends limit left rank s :=
  ⟨by simp [calls], by simp [calls], h⟩

theorem bind {p : Plan α} {f : Result α → Plan β} (hp : p.Descends limit left rank s)
    (hf : (f (p.run limit)).Descends limit left rank (p.run limit).final) :
    (p.bind f).Descends limit left rank s := by
  refine ⟨?_, ?_, ?_⟩
  · rw [calls_bind]
    exact List.forall_mem_append.mpr ⟨hp.below, hf.below⟩
  · rw [calls_bind]
    exact List.forall_mem_append.mpr
      ⟨hp.between, fun a ha => hp.reaches.trans (hf.between a ha)⟩
  · rw [run_bind]
    exact hp.reaches.trans hf.reaches

/-- With fewer tokens left, the task does not matter. -/
theorem mono {left' rank' : Nat} {p : Plan α} (h : p.Descends limit left' rank' s)
    (hlt : left' < left) : p.Descends limit left rank s := by
  refine ⟨fun a ha => ⟨?_, (h.below a ha).inside⟩, h.between, h.reaches⟩
  rcases Prod.lex_def.mp (h.below a ha).lex with hleft | ⟨heq, -⟩
  · exact .left _ _ (Nat.lt_trans hleft hlt)
  · exact .left _ _ (Nat.lt_of_le_of_lt (Nat.le_of_eq heq) hlt)

end Plan.Descends

namespace Scheme

variable {α β : Type} {limit : Option Nat} {left rank : Nat} {s : State} {p q : Scheme α}
  {f : α → Scheme β} {d : Draft}

theorem descends_bind (hp : (p s).Descends limit left rank s)
    (hf : ∀ a t, p.parser limit s = ⟨.matched a, t⟩ → (f a t).Descends limit left rank t) :
    ((p >>= f) s).Descends limit left rank s := by
  refine hp.bind ?_
  change (goOn f (p.parser limit s)).Descends limit left rank (p.parser limit s).final
  rcases h : p.parser limit s with ⟨a | _ | e, t⟩
  · exact hf a t h
  · exact .done (.refl _)
  · exact .done (.refl _)

theorem descends_orElse (hp : (p s).Descends limit left rank s)
    (hq : ∀ t, p.parser limit s = ⟨.mismatch, t⟩ → (q t).Descends limit left rank t) :
    ((p.orElse q) s).Descends limit left rank s := by
  refine hp.bind ?_
  change (otherwise q (p.parser limit s)).Descends limit left rank (p.parser limit s).final
  rcases h : p.parser limit s with ⟨a | _ | e, t⟩
  · exact .done (.refl _)
  · exact hq t h
  · exact .done (.refl _)

/-- The reader of an attempt that fails goes back, but no further than to where the attempt began. -/
theorem descends_tryRule {rule : Rule}
    (hp : (p (s.enter rule)).Descends limit left rank (s.enter rule)) :
    (tryRule limit rule p s).Descends limit left rank s := by
  unfold tryRule
  split
  · exact .done (.refl _)
  · have hreaches : (s.enter rule).reader.Reaches (p.parser limit (s.enter rule)).final.reader :=
      hp.reaches
    have hcalls : ((p (s.enter rule)).bind fun r => .done (s.leave rule r)).calls limit =
        (p (s.enter rule)).calls limit := by
      rw [Plan.calls_bind]
      exact List.append_nil _
    refine ⟨hcalls ▸ hp.below, hcalls ▸ hp.between, ?_⟩
    rw [Plan.run_bind]
    change s.reader.Reaches (s.leave rule (p.parser limit (s.enter rule))).final.reader
    rcases h : p.parser limit (s.enter rule) with ⟨_ | _ | _, t⟩ <;> rw [h] at hreaches
    · exact hreaches
    · exact .refl _
    · exact hreaches

theorem descends_call {c : Task} (hc : c ≠ .read)
    (h : Prod.Lex (· < ·) (· < ·) (s.left, c.rank) (left, rank)) :
    (call c s).Descends limit left rank s := by
  have hbelow : Call.Below left rank ⟨c, s⟩ := ⟨h, fun hread => absurd hread hc⟩
  exact ⟨List.forall_mem_singleton.mpr hbelow, List.forall_mem_singleton.mpr (.refl _),
    (Task.keeps_task limit hc s).reaches⟩

/-- The plans of the scheme are below the bound, wherever no more than so many tokens are left. -/
def Descends (limit : Option Nat) (left rank : Nat) (p : Scheme α) : Prop :=
  ∀ s : State, s.left ≤ left → (p s).Descends limit left rank s

namespace Descends

theorem lex_of_rank {c : Task} (hs : s.left ≤ left) (hc : c.rank < rank) :
    Prod.Lex (· < ·) (· < ·) (s.left, c.rank) (left, rank) := by
  rcases Nat.lt_or_eq_of_le hs with hlt | heq
  · exact .left _ _ hlt
  · rw [heq]
    exact .right _ hc

theorem pure (a : α) : Descends limit left rank (Pure.pure a : Scheme α) :=
  fun _ _ => .done (.refl _)

theorem of {p : Parser α} (hp : Keeps p) : Descends limit left rank (Scheme.of p) :=
  fun s _ => .done (hp s).reaches

theorem left_le (hp : p.Descends limit left rank) (hs : s.left ≤ left) {o : Outcome α} {t : State}
    (h : p.parser limit s = ⟨o, t⟩) : t.left ≤ left := by
  have hreaches : s.reader.Reaches (p.parser limit s).final.reader := (hp s hs).reaches
  rw [h] at hreaches
  exact Nat.le_trans hreaches.left_le hs

theorem bind (hp : p.Descends limit left rank) (hf : ∀ a, (f a).Descends limit left rank) :
    (p >>= f).Descends limit left rank :=
  fun s hs => descends_bind (hp s hs) fun a t ht => hf a t (hp.left_le hs ht)

theorem orElse (hp : p.Descends limit left rank) (hq : q.Descends limit left rank) :
    (p.orElse q).Descends limit left rank :=
  fun s hs => descends_orElse (hp s hs) fun t ht => hq t (hp.left_le hs ht)

theorem tryRule {rule : Rule} (hp : p.Descends limit left rank) :
    (Scheme.tryRule limit rule p).Descends limit left rank :=
  fun s hs => descends_tryRule (hp (s.enter rule) hs)

theorem call {c : Task} (hc : c ≠ .read) (h : c.rank < rank) :
    (Scheme.call c).Descends limit left rank :=
  fun _ hs => descends_call hc (lex_of_rank hs h)

theorem production {p : Production} (h : (Task.production p).rank < rank) :
    (Scheme.production p).Descends limit left rank := call (by simp) h

theorem loop {l : Loop} (h : (Task.loop l d).rank < rank) :
    (Scheme.loop l d).Descends limit left rank := call (by simp) h

theorem look {f : TokenKind → Scheme α}
    (h : ∀ s : State, s.left ≤ left → (f s.nextKind s).Descends limit left rank s) :
    (Scheme.of nextKind >>= f).Descends limit left rank := h

end Descends

theorem keeps_makeLeaf (token : Token) : Keeps (step (makeLeaf token)) :=
  fun s => (s.kept_internToken token).trans (State.kept_withArena _ _)

section Reading

variable (hrank : 0 < rank)

include hrank

theorem descends_read (hs : s.left ≤ left) (h : s.nextKind ≠ .eof) :
    (read s).Descends limit left rank s := by
  have hbelow : Call.Below left rank ⟨.read, s⟩ :=
    ⟨Descends.lex_of_rank (c := .read) hs hrank, fun _ => h⟩
  exact ⟨List.forall_mem_singleton.mpr hbelow, List.forall_mem_singleton.mpr (.refl _), .rest h⟩

theorem descends_read_bind {f : Unit → Scheme α} (hs : s.left ≤ left) (h : s.nextKind ≠ .eof)
    (hf : s.skip.left < left → (f () s.skip).Descends limit left rank s.skip) :
    ((read >>= f) s).Descends limit left rank s := by
  refine descends_bind (descends_read hrank hs h) fun _ t ht => ?_
  obtain rfl : s.skip = t := (Result.mk.inj ht).2
  exact hf (Nat.lt_of_lt_of_le (State.left_skip_lt h) hs)

theorem descends_leaf (hs : s.left ≤ left) (h : s.nextKind ≠ .eof) :
    (leaf s).Descends limit left rank s :=
  descends_read_bind (f := fun _ => Scheme.of (step (makeLeaf s.reader.next))) hrank hs h
    fun _ => .done (keeps_makeLeaf s.reader.next s.skip).reaches

theorem descends_addLeaf (d : Draft) (hs : s.left ≤ left) (h : s.nextKind ≠ .eof) :
    (addLeaf d s).Descends limit left rank s :=
  descends_bind (descends_leaf hrank hs h) fun leaf t _ => .done (keeps_append d leaf t).reaches

section Leaf

variable {property : TokenKind → Bool} (h : property .eof = false) (d : Draft)

include h

theorem descends_requiredLeaf : (requiredLeaf property d).Descends limit left rank := by
  refine .look fun s hs => ?_
  split
  · next hk => exact descends_addLeaf hrank d hs fun he => by simp [he, h] at hk
  · exact .done (.refl _)

theorem descends_optionalLeaf : (optionalLeaf property d).Descends limit left rank := by
  refine .look fun s hs => ?_
  split
  · next hk => exact descends_addLeaf hrank d hs fun he => by simp [he, h] at hk
  · exact .done (.refl _)

end Leaf

theorem descends_expect {kind : TokenKind} (h : kind ≠ .eof) :
    (expect kind).Descends limit left rank := by
  refine .look fun s hs => ?_
  split
  · next hk => exact descends_read hrank hs (hk ▸ h)
  · exact .done (.refl _)

end Reading

theorem descends_innerQualifier (hrank : 0 < rank) (qualified : Bool) (ty : Draft) :
    (innerQualifier qualified ty).Descends limit left rank := by
  unfold innerQualifier
  split
  · exact (Descends.of keeps_noQualifier).bind fun _ => .pure ty
  · exact descends_optionalLeaf hrank rfl ty

theorem descends_outerQualifier (hrank : 0 < rank) (ty : Draft) :
    (outerQualifier ty).Descends limit left rank := by
  refine .look fun s hs => ?_
  split
  · refine Descends.bind (descends_requiredLeaf hrank rfl ty) (fun ty => ?_) s hs
    exact (Descends.of keeps_noQualifier).bind fun _ => .pure ty
  · exact .done (.refl _)

theorem descends_pointer (hrank : 1 < rank) (ty : Draft) :
    (pointer ty).Descends limit left rank := by
  refine .look fun s hs => ?_
  split
  · exact Descends.bind (.loop hrank) (descends_outerQualifier (Nat.zero_lt_of_lt hrank)) s hs
  · exact .done (.refl _)

theorem descends_typeParts (hrank : 1 < rank) (ty : Draft) :
    (typeParts ty).Descends limit left rank := by
  have hread : 0 < rank := Nat.zero_lt_of_lt hrank
  refine (descends_optionalLeaf hread rfl _).bind fun _ => ?_
  refine (Descends.of keeps_nextKind).bind fun _ => ?_
  refine (descends_optionalLeaf hread rfl _).bind fun _ => ?_
  refine (descends_optionalLeaf hread rfl _).bind fun _ => ?_
  refine (descends_requiredLeaf hread rfl _).bind fun _ => ?_
  exact (descends_innerQualifier hread _ _).bind (descends_pointer hrank)

theorem descends_parameter (hrank : 2 < rank) (list : Draft) :
    (parameter list).Descends limit left rank := by
  refine (Descends.production hrank).bind fun ty => ?_
  refine (Descends.production (Nat.lt_of_succ_lt hrank)).bind fun name => ?_
  exact (Descends.of (keeps_append _ _)).bind fun _ => .of (keeps_append _ _)

theorem descends_signature (hrank : 4 < rank) : signature.Descends limit left rank := by
  have hread : 0 < rank := Nat.zero_lt_of_lt hrank
  refine (Descends.production (show 2 < rank by omega)).bind fun _ => ?_
  refine (Descends.production (show 1 < rank by omega)).bind fun _ => ?_
  refine (descends_expect hread (by simp)).bind fun _ => ?_
  refine (Descends.production hrank).bind fun _ => ?_
  exact (descends_expect hread (by simp)).bind fun _ => .pure _

theorem descends_someParameters (hrank : 3 < rank) (list : Draft) :
    (someParameters list).Descends limit left rank := by
  refine .look fun s hs => ?_
  split
  · exact .done (.refl _)
  · exact Descends.loop hrank s hs

theorem descends_group (hrank : 5 < rank) : group.Descends limit left rank := by
  refine (Descends.production hrank).bind fun _ => ?_
  exact (descends_expect (Nat.zero_lt_of_lt hrank) (by simp)).bind fun _ => .pure _

theorem descends_simpleStatement (hrank : 5 < rank) (d : Draft) :
    (simpleStatement d).Descends limit left rank := by
  have hread : 0 < rank := Nat.zero_lt_of_lt hrank
  refine (Descends.of keeps_nextKind).bind fun next => ?_
  cases Construct.ofStatement? next with
  | some construct => exact .of (keeps_refuseConstruct construct)
  | none =>
    refine (descends_optionalLeaf hread rfl _).bind fun _ => ?_
    refine (Descends.production hrank).bind fun _ => ?_
    exact (descends_expect hread (by simp)).bind fun _ => .of (keeps_append _ _)

/-- A `{` is read before the statements behind it are looked for. -/
theorem descends_statementParts (hrank : 5 < rank) (d : Draft) :
    (statementParts d).Descends limit left rank := by
  refine .look fun s hs => ?_
  split
  · next hb =>
    have hs' : s.nextKind ≠ .eof := by simp [hb]
    exact descends_read_bind (Nat.zero_lt_of_lt hrank) hs hs' fun hlt =>
      descends_call (by simp) (.left _ _ hlt)
  · exact descends_simpleStatement hrank d s hs

theorem descends_bodyItem (hrank : 6 < rank) : bodyItem.Descends limit left rank :=
  (Descends.production (show 3 < rank by omega)).orElse (.production hrank)

theorem descends_startAgain (d : Draft) (child : Node) :
    (startAgain d child).Descends limit left rank :=
  (Descends.of (keeps_append d child)).bind fun _ => .pure _

theorem descends_topLevel (hrank : 9 < rank) : topLevel.Descends limit left rank := by
  refine (Descends.production (show 3 < rank by omega)).orElse ?_
  refine (Descends.production (show 3 < rank by omega)).orElse ?_
  refine (Descends.production (show 5 < rank by omega)).orElse ?_
  exact (Descends.production hrank).orElse (.production (show 1 < rank by omega))

end Scheme

open Scheme

theorem Loop.descends_turn {limit : Option Nat} {left rank : Nat} (l : Loop) (d : Draft)
    (hrank : (Task.loop l d).rank ≤ rank) : (l.turn d).Descends limit left rank := by
  cases l with
  | unitItems =>
    refine .look fun s hs => ?_
    split
    · exact .done (.refl _)
    · have hitem : (topLevel.orElse (Scheme.of rejectUnit)).Descends limit left rank :=
        (descends_topLevel hrank).orElse (.of keeps_rejectUnit)
      exact hitem.bind (descends_startAgain d) s hs
  | bodyItems =>
    refine .look fun s hs => ?_
    split
    · exact .done (.refl _)
    · exact Descends.bind (descends_bodyItem hrank) (descends_startAgain d) s hs
  | compound =>
    refine .look fun s hs => ?_
    split
    · next hb =>
      exact descends_read_bind (Nat.zero_lt_of_lt hrank) hs (by simp [hb]) fun _ => .done (.refl _)
    · exact Descends.bind (.production hrank) (descends_startAgain d) s hs
  | parameters =>
    refine (descends_parameter hrank d).bind fun list => .look fun s hs => ?_
    split
    · exact .done (.refl _)
    · split
      · next hc =>
        exact descends_read_bind (Nat.zero_lt_of_lt hrank) hs (by simp [hc]) fun _ => .done (.refl _)
      · exact .done (.refl _)
  | stars =>
    refine .look fun s hs => ?_
    split
    · next hstar =>
      exact descends_bind (descends_addLeaf hrank d hs (by simp [hstar])) fun _ _ _ => .done (.refl _)
    · exact .done (.refl _)
  | operands =>
    refine .look fun s hs => ?_
    cases hk : s.nextKind.expressionPart with
    | close => exact .done (.refl _)
    | stray => exact .done (.refl _)
    | operand =>
      have hne := TokenKind.ne_eof_of_operand hk
      exact descends_bind (descends_addLeaf (Nat.zero_lt_of_lt hrank) d hs hne) fun _ _ _ =>
        .done (.refl _)
    | group =>
      have hne := TokenKind.ne_eof_of_group hk
      refine descends_read_bind (Nat.zero_lt_of_lt hrank) hs hne fun hlt => ?_
      -- an expression comes later than its operands, but the parenthesis was read before
      have hinner : Scheme.Descends limit s.skip.left 6
          ((Scheme.production (.ofRule .cast)).orElse group >>= startAgain d) :=
        ((Descends.production (by decide)).orElse (descends_group (by decide))).bind
          (descends_startAgain d)
      exact (hinner s.skip (Nat.le_refl _)).mono hlt

theorem Loop.advances_of_again {limit : Option Nat} {l : Loop} {d d' : Draft} {s t : State}
    (h : (l.turn d).parser limit s = ⟨.matched (.again d'), t⟩) : s.reader.Advances t.reader := by
  have hreaches : s.reader.Reaches ((l.turn d).parser limit s).final.reader :=
    (l.descends_turn d (Nat.le_refl _) s (Nat.le_refl _)).reaches
  rw [h] at hreaches
  exact hreaches.advances (left_lt_of_again h)

theorem Loop.descends_plan {limit : Option Nat} {s : State} (l : Loop) (d : Draft) :
    (l.plan d s).Descends limit s.left (Task.loop l d).rank s := by
  refine descends_bind (l.descends_turn d (Nat.le_refl _) s (Nat.le_refl _)) fun turn t ht => ?_
  cases turn with
  | again d' => exact descends_call (by simp) (.left _ _ (left_lt_of_again ht))
  | finished d' => exact .done (.refl _)

theorem Production.descends_plan {limit : Option Nat} {left : Nat} (p : Production) :
    (p.plan limit).Descends limit left (Task.production p).rank := by
  cases p with
  | ofRule rule =>
    cases rule with
    | type =>
      refine .tryRule ((Descends.of (keeps_openNode _ _)).bind fun ty => ?_)
      exact (descends_typeParts (by decide) ty).bind fun _ => .pure _
    | variableDeclaration =>
      refine .tryRule ((Descends.of keeps_nextLine).bind fun line => ?_)
      refine (descends_expect (by decide) (by simp)).bind fun _ => ?_
      refine (Descends.production (by decide)).bind fun _ => ?_
      refine (Descends.production (by decide)).bind fun _ => ?_
      exact (descends_expect (by decide) (by simp)).bind fun _ => .of (keeps_nodeOf _ _ _)
    | variableDefinition =>
      refine .tryRule ((Descends.of keeps_nextLine).bind fun line => ?_)
      refine (Descends.production (by decide)).bind fun _ => ?_
      refine (Descends.production (by decide)).bind fun _ => ?_
      exact (descends_expect (by decide) (by simp)).bind fun _ => .of (keeps_nodeOf _ _ _)
    | parameterList =>
      refine .tryRule ((Descends.of (keeps_openNode _ _)).bind fun list => ?_)
      exact (descends_someParameters (by decide) list).bind fun _ => .pure _
    | functionDeclaration =>
      refine .tryRule ((Descends.of keeps_nextLine).bind fun line => ?_)
      refine (descends_signature (by decide)).bind fun _ => ?_
      exact (descends_expect (by decide) (by simp)).bind fun _ => .of (keeps_nodeOf _ _ _)
    | functionDefinition =>
      refine .tryRule ((Descends.of keeps_nextLine).bind fun line => ?_)
      refine (descends_signature (by decide)).bind fun _ => ?_
      refine (descends_expect (by decide) (by simp)).bind fun _ => ?_
      refine (Descends.production (by decide)).bind fun _ => ?_
      exact (descends_expect (by decide) (by simp)).bind fun _ => .of (keeps_nodeOf _ _ _)
    | functionBody =>
      refine .tryRule ((Descends.of (keeps_openNode _ _)).bind fun body => ?_)
      exact (Descends.loop (show 7 < 8 by decide)).bind fun _ => .pure _
    | statement =>
      refine .tryRule ((Descends.of (keeps_openNode _ _)).bind fun d => ?_)
      exact (descends_statementParts (by decide) d).bind fun _ => .pure _
    | expression =>
      refine .tryRule ((Descends.of (keeps_openNode _ _)).bind fun d => ?_)
      exact (Descends.loop (show 4 < 5 by decide)).bind fun _ => .pure _
    | cast =>
      refine .tryRule ((Descends.production (by decide)).bind fun ty => ?_)
      exact (descends_expect (by decide) (by simp)).bind fun _ => .pure _
  | identifier =>
    refine .look fun s hs => ?_
    split
    · next hk => exact descends_leaf (by decide) hs (by simp [hk])
    · exact .done (.refl _)
  | refusedDeclaration => exact .of keeps_refusedDeclaration

theorem Task.descends_plan {limit : Option Nat} {s : State} {c : Task} (h : c ≠ .read) :
    (c.plan limit s).Descends limit s.left c.rank s := by
  cases c with
  | unit =>
    have hunit : Scheme.Descends limit s.left 11 (Task.unit.plan limit) := by
      refine (Descends.of (keeps_openNode _ _)).bind fun root => ?_
      refine (Descends.loop (show 10 < 11 by decide)).bind fun root => ?_
      exact (Descends.of fun s => s.kept_record _).bind fun _ => .pure _
    exact hunit s (Nat.le_refl _)
  | production p => exact p.descends_plan s (Nat.le_refl _)
  | loop l d => exact l.descends_plan d
  | read => exact absurd rfl h

end MiniC
