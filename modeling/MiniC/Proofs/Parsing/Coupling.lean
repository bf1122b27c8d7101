import MiniC.Proofs.Parsing.Like
import MiniC.Proofs.Parsing.Unit

namespace MiniC

/-- The requests of a parse that are not for texts. -/
def Request.IsForNodes (r : Request) : Prop := r.align = 8

theorem Draft.isForNodes_requests (d : Draft) : ∀ r ∈ d.requests, r.IsForNodes := by
  unfold Draft.requests
  split <;> simp [Request.IsForNodes, Node.request, Node.slotsRequest, Request.align]

theorem Draft.isForNodes_growth (d : Draft) : ∀ r ∈ d.growth, r.IsForNodes := by
  unfold Draft.growth
  split <;> simp [Request.IsForNodes, Node.slotsRequest, Request.align]

/-- Two parses whose states correspond, and what every step does to them. -/
structure Coupling where
  limit : Option Nat
  limit' : Option Nat
  line : Nat → Nat → Prop
  text : Option StoredText → Option StoredText → Prop
  state : State → State → Prop
  error : ParseError → ParseError → Prop
  /-- The first parse was given up for its limit and has the one log; the second one went on and has
  the other log now. -/
  lost : ParseError → List Event → List Event → Prop
  nextKind {s t : State} : state s t → s.nextKind = t.nextKind
  nextLine {s t : State} : state s t → line s.nextLine t.nextLine
  lastLine {s t : State} : state s t → line s.reader.line t.reader.line
  noText : text none none
  unsupported {s t : State} (construct : Construct) : state s t →
    error (.unsupported construct s.nextLine) (.unsupported construct t.nextLine)
  unrecognized {s t : State} : state s t →
    error (.unrecognized s.nextKind s.nextLine) (.unrecognized t.nextKind t.nextLine)
  nestingTooDeep {s t : State} : state s t → s.isFull limit = true → t.isFull limit' = true →
    error (.nestingTooDeep s.nextLine) (.nestingTooDeep t.nextLine)
  record {s t : State} {e e' : Event} : state s t → e.Like line e' →
    state (s.record e) (t.record e')
  skip {s t : State} : state s t → s.nextKind ≠ .eof → state s.skip t.skip
  /-- What is interned is the text of the token that was read last. -/
  intern {s t : State} : state s t → s.nextKind ≠ .eof →
    text (s.skip.internToken s.reader.next).1 (t.skip.internToken t.reader.next).1 ∧
      state (s.skip.internToken s.reader.next).2 (t.skip.internToken t.reader.next).2
  reserve {s t : State} {requests : List Request} : state s t →
    (∀ r ∈ requests, r.IsForNodes) →
    state (s.withArena (s.arena.reserveAll requests)) (t.withArena (t.arena.reserveAll requests))
  enter {s t : State} (rule : Rule) : state s t → s.isFull limit = false →
    t.isFull limit' = false ∧ state (s.enter rule) (t.enter rule)
  /-- Only the first parse may not try the rule. -/
  lose {s t : State} {later : List Event} (rule : Rule) : state s t → s.isFull limit = true →
    t.isFull limit' = false → (t.enter rule).log <:+ later →
    lost (.nestingTooDeep s.nextLine) (s.record (.limitReached rule s.nextLine)).log later
  back {s t u v : State} : state s t → state u v →
    state { u with reader := s.reader } { v with reader := t.reader }
  leave {s t : State} : state s t →
    state { s with depth := s.depth - 1 } { t with depth := t.depth - 1 }
  lost_mono {e : ParseError} {log later later' : List Event} : lost e log later →
    later <:+ later' → lost e log later'

/-- The results of two coupled parses. -/
inductive Result.Coupled {α β : Type} (C : Coupling) (R : α → β → Prop) :
    Result α → Result β → Prop where
  | matched {a : α} {b : β} {s t : State} : R a b → C.state s t →
      Coupled C R ⟨.matched a, s⟩ ⟨.matched b, t⟩
  | mismatch {s t : State} : C.state s t → Coupled C R ⟨.mismatch, s⟩ ⟨.mismatch, t⟩
  | fatal {e e' : ParseError} {s t : State} : C.error e e' → C.state s t →
      Coupled C R ⟨.fatal e, s⟩ ⟨.fatal e', t⟩
  | lost {e : ParseError} {s : State} {r : Result β} : C.lost e s.log r.final.log →
      Coupled C R ⟨.fatal e, s⟩ r

namespace Parser

class GrowsLog {α : Type} (p : Parser α) : Prop where
  suffix (s : State) : s.log <:+ (p s).final.log

section GrowsLog

variable {α β : Type} {p : Parser α} {f : α → Parser β}

theorem Keeps.growsLog (h : Keeps p) : GrowsLog p := ⟨fun s => (h s).log⟩

theorem suffix_andThen [hf : ∀ a, GrowsLog (f a)] (r : Result α) :
    r.final.log <:+ (r.andThen f).final.log := by
  rcases r with ⟨a | _ | e, t⟩
  · exact (hf a).suffix t
  · exact List.suffix_rfl
  · exact List.suffix_rfl

instance [hp : GrowsLog p] [∀ a, GrowsLog (f a)] : GrowsLog (p >>= f) :=
  ⟨fun s => (hp.suffix s).trans (suffix_andThen (p s))⟩

instance {q : Parser α} [hp : GrowsLog p] [hq : GrowsLog q] : GrowsLog (p.orElse q) := by
  refine ⟨fun s => ?_⟩
  have h := hp.suffix s
  unfold Parser.orElse
  revert h
  rcases p s with ⟨a | _ | e, t⟩ <;> intro h
  · exact h
  · exact h.trans (hq.suffix t)
  · exact h

instance (a : α) : GrowsLog (pure a : Parser α) := (keeps_pure a).growsLog

instance (kind : NodeKind) (wanted : Nat) : GrowsLog (openNode kind wanted) :=
  (keeps_openNode kind wanted).growsLog

instance (d : Draft) (child : Node) : GrowsLog (append d child) := (keeps_append d child).growsLog

instance : GrowsLog nextKind := keeps_nextKind.growsLog

instance : GrowsLog nextLine := keeps_nextLine.growsLog

instance (e : State → Event) : GrowsLog (record e) := ⟨fun _ => List.suffix_cons _ _⟩

instance (kind : TokenKind) : GrowsLog (expect kind) := by
  refine ⟨fun s => ?_⟩
  unfold expect
  split <;> exact List.suffix_rfl

theorem suffix_addLeaf (s : State) (d : Draft) : s.log <:+ (s.addLeaf d).2.log :=
  (((s.skip.kept_internToken s.reader.next).trans (State.kept_withArena _ _)).trans
    (State.kept_append _ d _)).log

instance (property : TokenKind → Bool) (d : Draft) : GrowsLog (requiredLeaf property d) := by
  refine ⟨fun s => ?_⟩
  unfold requiredLeaf
  split
  · exact suffix_addLeaf s d
  · exact List.suffix_rfl

instance (property : TokenKind → Bool) (d : Draft) : GrowsLog (optionalLeaf property d) := by
  refine ⟨fun s => ?_⟩
  unfold optionalLeaf
  split
  · exact suffix_addLeaf s d
  · exact List.suffix_rfl

instance (kind : NodeKind) (line : Nat) (children : List Node) :
    GrowsLog (nodeOf kind line children) := (keeps_nodeOf kind line children).growsLog

instance : GrowsLog (rejectUnit : Parser α) := ⟨fun _ => List.suffix_cons _ _⟩

instance : GrowsLog noQualifier := keeps_noQualifier.growsLog

instance (qualified : Bool) (d : Draft) : GrowsLog (innerQualifier qualified d) :=
  (keeps_innerQualifier qualified d).growsLog

instance (d : Draft) : GrowsLog (pointer d) := (keeps_pointer d).growsLog

instance (limit : Option Nat) : GrowsLog (typeName limit) := (keeps_typeName limit).growsLog

instance : GrowsLog identifier := keeps_identifier.growsLog

instance (limit : Option Nat) (d : Draft) : GrowsLog (someParameters limit d) :=
  (keeps_someParameters limit d).growsLog

instance (limit : Option Nat) : GrowsLog (parameterList limit) :=
  (keeps_parameterList limit).growsLog

instance (limit : Option Nat) : GrowsLog (signature limit) := (keeps_signature limit).growsLog

instance (limit : Option Nat) (d : Draft) : GrowsLog (operands limit d) :=
  (keeps_operands limit d).growsLog

instance (limit : Option Nat) : GrowsLog (expression limit) := (keeps_expression limit).growsLog

instance (limit : Option Nat) (d : Draft) : GrowsLog (compound limit d) :=
  (keeps_compound limit d).growsLog

end GrowsLog

variable {α β γ δ : Type} {C : Coupling} {R : α → β → Prop} {R' : γ → δ → Prop} {s t : State}

theorem coupled_bind {p : Parser α} {q : Parser β} {f : α → Parser γ} {g : β → Parser δ}
    [∀ b, GrowsLog (g b)] (hp : (p s).Coupled C R (q t))
    (hf : ∀ a b u v, p s = ⟨.matched a, u⟩ → R a b → C.state u v →
      (f a u).Coupled C R' (g b v)) :
    ((p >>= f) s).Coupled C R' ((q >>= g) t) := by
  rw [bind_apply, bind_apply]
  rcases hr : p s with ⟨o, u⟩
  rw [hr] at hp
  have hlog := suffix_andThen (f := g) (q t)
  generalize q t = r at hp hlog
  cases hp with
  | matched hab huv => exact hf _ _ _ _ hr hab huv
  | mismatch huv => exact .mismatch huv
  | fatal he huv => exact .fatal he huv
  | lost hl => exact .lost (C.lost_mono hl hlog)

theorem coupled_orElse {p q : Parser α} {p' q' : Parser β} [hlog : GrowsLog q']
    (hp : (p s).Coupled C R (p' t))
    (hq : ∀ u v, p s = ⟨.mismatch, u⟩ → C.state u v → (q u).Coupled C R (q' v)) :
    ((p.orElse q) s).Coupled C R ((p'.orElse q') t) := by
  unfold Parser.orElse
  rcases hr : p s with ⟨o, u⟩
  rw [hr] at hp
  generalize p' t = r at hp
  cases hp with
  | matched hab huv => exact .matched hab huv
  | mismatch huv => exact hq _ _ hr huv
  | fatal he huv => exact .fatal he huv
  | lost hl =>
    rcases r with ⟨b | _ | e, v⟩
    · exact .lost hl
    · exact .lost (C.lost_mono hl (hlog.suffix v))
    · exact .lost hl

theorem suffix_leave (rule : Rule) (r : Result α) : r.final.log <:+ (s.leave rule r).final.log := by
  rcases r with ⟨a | _ | e, t⟩
  · exact List.suffix_rfl
  · exact List.suffix_cons _ _
  · exact List.suffix_rfl

theorem coupled_leave {r : Result α} {r' : Result β} (rule : Rule) (hst : C.state s t)
    (h : r.Coupled C R r') : (s.leave rule r).Coupled C R (t.leave rule r') := by
  cases h with
  | matched hab huv => exact .matched hab (C.leave huv)
  | mismatch huv =>
    have hline := C.lastLine hst
    exact .mismatch (C.record (C.leave (C.back hst huv)) (.backtracked rule hline))
  | fatal he huv => exact .fatal he (C.leave huv)
  | lost hl => exact .lost (C.lost_mono hl (suffix_leave rule r'))

theorem coupled_tryRule {p : Parser α} {q : Parser β} {rule : Rule} [hlog : GrowsLog q]
    (hst : C.state s t)
    (h : C.state (s.enter rule) (t.enter rule) →
      (p (s.enter rule)).Coupled C R (q (t.enter rule))) :
    (tryRule C.limit rule p s).Coupled C R (tryRule C.limit' rule q t) := by
  unfold tryRule
  cases hs : s.isFull C.limit with
  | false =>
    obtain ⟨ht, henter⟩ := C.enter rule hst hs
    rw [ht]
    exact coupled_leave rule hst (h henter)
  | true =>
    have hline := C.nextLine hst
    cases ht : t.isFull C.limit' with
    | true => exact .fatal (C.nestingTooDeep hst hs ht) (C.record hst (.limitReached rule hline))
    | false =>
      have hlater := (hlog.suffix (t.enter rule)).trans (suffix_leave (s := t) rule _)
      exact .lost (C.lose rule hst hs ht hlater)

/-- The parsers keep states in step, and their values are related. -/
def Couple (C : Coupling) (R : α → β → Prop) (p : Parser α) (q : Parser β) : Prop :=
  ∀ s t, C.state s t → (p s).Coupled C R (q t)

namespace Couple

theorem andThen {p : Parser α} {q : Parser β} {f : α → Parser γ} {g : β → Parser δ}
    [∀ b, GrowsLog (g b)] (hp : Couple C R p q)
    (hf : ∀ a b, R a b → Couple C R' (f a) (g b)) : Couple C R' (p >>= f) (q >>= g) :=
  fun s t hst => coupled_bind (hp s t hst) fun a b u v _ hab huv => hf a b hab u v huv

theorem orElse {p q : Parser α} {p' q' : Parser β} [GrowsLog q'] (hp : Couple C R p p')
    (hq : Couple C R q q') : Couple C R (p.orElse q) (p'.orElse q') :=
  fun s t hst => coupled_orElse (hp s t hst) fun u v _ huv => hq u v huv

theorem tryRule {p : Parser α} {q : Parser β} [GrowsLog q] (hp : Couple C R p q) (rule : Rule) :
    Couple C R (Parser.tryRule C.limit rule p) (Parser.tryRule C.limit' rule q) :=
  fun _ _ hst => coupled_tryRule hst fun henter => hp _ _ henter

end Couple

/-- Nodes that the two parses make of the same text. -/
abbrev Nodes (C : Coupling) : Node → Node → Prop := Node.Like C.line C.text

abbrev Drafts (C : Coupling) : Draft → Draft → Prop := Draft.Like C.line C.text

section Steps

variable {d d' : Draft} {n n' : Node} {property : TokenKind → Bool} {kind : TokenKind}

theorem couple_pure {a : α} {b : β} (h : R a b) : Couple C R (pure a) (pure b) :=
  fun _ _ hst => .matched h hst

theorem couple_nextKind : Couple C Eq nextKind nextKind :=
  fun _ _ hst => .matched (C.nextKind hst) hst

theorem couple_nextLine : Couple C C.line nextLine nextLine :=
  fun _ _ hst => .matched (C.nextLine hst) hst

theorem couple_openNode (kind : NodeKind) (wanted : Nat) :
    Couple C (Drafts C) (openNode kind wanted) (openNode kind wanted) := by
  intro s t hst
  have hd := Draft.Like.empty kind wanted (C.nextLine hst) C.noText
  exact .matched hd (C.reserve hst (Draft.isForNodes_requests _))

theorem state_append (n n' : Node) (hst : C.state s t) (hd : Drafts C d d') :
    C.state (s.append d n).2 (t.append d' n').2 := by
  have hreserve := C.reserve hst (Draft.isForNodes_growth d)
  unfold State.append
  rw [← hd.growth]
  exact hreserve

theorem couple_append (hd : Drafts C d d') (hn : Nodes C n n') :
    Couple C (Drafts C) (append d n) (append d' n') :=
  fun _ _ hst => .matched (hd.push hn) (state_append _ _ hst hd)

theorem takeLeaf_coupled (hst : C.state s t) (hs : s.nextKind ≠ .eof) :
    Nodes C s.takeLeaf.1 t.takeLeaf.1 ∧ C.state s.takeLeaf.2 t.takeLeaf.2 := by
  obtain ⟨htext, hread⟩ := C.intern hst hs
  have hline := C.lastLine hread
  unfold State.takeLeaf
  rw [← C.nextKind hst]
  have hd := Draft.Like.leaf (.token s.nextKind) hline htext
  exact ⟨hd.close, C.reserve hread (Draft.isForNodes_requests _)⟩

theorem addLeaf_coupled (hst : C.state s t) (hs : s.nextKind ≠ .eof) (hd : Drafts C d d') :
    Drafts C (s.addLeaf d).1 (t.addLeaf d').1 ∧ C.state (s.addLeaf d).2 (t.addLeaf d').2 := by
  obtain ⟨hleaf, hread⟩ := takeLeaf_coupled hst hs
  exact ⟨hd.push hleaf, state_append _ _ hread hd⟩

theorem couple_expect (hk : kind ≠ .eof) : Couple C Eq (expect kind) (expect kind) := by
  intro s t hst
  unfold expect
  rw [← C.nextKind hst]
  split
  · next h => exact .matched rfl (C.skip hst (h ▸ hk))
  · exact .mismatch hst

theorem couple_requiredLeaf (h : property .eof = false) (hd : Drafts C d d') :
    Couple C (Drafts C) (requiredLeaf property d) (requiredLeaf property d') := by
  intro s t hst
  unfold requiredLeaf
  rw [← C.nextKind hst]
  split
  · next hp =>
    have hs : s.nextKind ≠ .eof := fun he => by simp [he, h] at hp
    obtain ⟨hadd, hread⟩ := addLeaf_coupled hst hs hd
    exact .matched hadd hread
  · exact .mismatch hst

theorem couple_optionalLeaf (h : property .eof = false) (hd : Drafts C d d') :
    Couple C (Drafts C) (optionalLeaf property d) (optionalLeaf property d') := by
  intro s t hst
  unfold optionalLeaf
  rw [← C.nextKind hst]
  split
  · next hp =>
    have hs : s.nextKind ≠ .eof := fun he => by simp [he, h] at hp
    obtain ⟨hadd, hread⟩ := addLeaf_coupled hst hs hd
    exact .matched hadd hread
  · exact .matched hd hst

theorem couple_refuseConstruct (construct : Construct) :
    Couple C R (refuseConstruct construct) (refuseConstruct construct) := by
  intro s t hst
  have hline := C.nextLine hst
  exact .fatal (C.unsupported construct hst) (C.record hst (.unsupported construct hline))

theorem couple_nodeOf (kind : NodeKind) {line line' : Nat} {ns ns' : List Node}
    (hline : C.line line line') (hns : List.Forall₂ (Nodes C) ns ns') :
    Couple C (Nodes C) (nodeOf kind line ns) (nodeOf kind line' ns') := by
  have fold (d d' : Draft) (s t : State) (hd : Drafts C d d') (hst : C.state s t) :
      Drafts C (ns.foldl (fun r n => r.2.append r.1 n) (d, s)).1
          (ns'.foldl (fun r n => r.2.append r.1 n) (d', t)).1 ∧
        C.state (ns.foldl (fun r n => r.2.append r.1 n) (d, s)).2
          (ns'.foldl (fun r n => r.2.append r.1 n) (d', t)).2 := by
    induction hns generalizing d d' s t with
    | nil => exact ⟨hd, hst⟩
    | @cons n n' _ _ hn _ ih => exact ih _ _ _ _ (hd.push hn) (state_append n n' hst hd)
  intro s t hst
  have hd := Draft.Like.empty kind ns.length hline C.noText
  have hreserve := C.reserve hst (Draft.isForNodes_requests (.empty kind line ns.length))
  obtain ⟨hall, hfold⟩ := fold _ _ _ _ hd hreserve
  unfold nodeOf
  rw [← hns.length_eq]
  exact .matched hall.close hfold

end Steps

end Parser

end MiniC
