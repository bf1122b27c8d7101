import MiniC.Proofs.Parsing.Alternatives
import MiniC.Proofs.Parsing.Tandem

namespace MiniC

/-- Two parses that are at the same place. -/
def Tandem.same : Tandem where
  readers := Eq
  line := Eq
  errorLine := Eq
  next h := congrArg Reader.next h
  rest h _ := congrArg Reader.rest h
  lastLine h := congrArg Reader.line h
  nextLine h := congrArg Reader.nextLine h
  errorNextLine h := congrArg Reader.nextLine h

namespace State

/-- The states are at the same place, and both interners are faithful. -/
abbrev Same : State → State → Prop := Tandem.same.States

namespace Same

variable {s t u : State}

theorem refl (hf : s.interner.Faithful) : s.Same s := ⟨rfl, rfl, hf, hf⟩

theorem symm (h : s.Same t) : t.Same s := ⟨h.readers.symm, h.depth.symm, h.faithful', h.faithful⟩

theorem trans (h : s.Same t) (k : t.Same u) : s.Same u :=
  ⟨h.readers.trans k.readers, h.depth.trans k.depth, h.faithful, k.faithful'⟩

theorem nextLine (h : s.Same t) : s.nextLine = t.nextLine := congrArg Reader.nextLine h.readers

theorem of_kept (h : s.Kept t) (hr : t.reader = s.reader) (hf : s.interner.Faithful) : s.Same t :=
  ⟨hr.symm, h.depth.symm, hf, h.faithful hf⟩

end Same

end State

namespace Alternative

open MiniC.Parser

variable {limit : Option Nat} {s t : State} {order : List Alternative}

theorem consumes_alternative (limit : Option Nat) (a : Alternative) : Consumes (a.parser limit) := by
  cases a with
  | variableDeclaration => exact consumes_variableDeclaration limit
  | variableDefinition => exact consumes_variableDefinition limit
  | functionDeclaration => exact consumes_functionDeclaration limit
  | functionDefinition => exact consumes_functionDefinition limit
  | refusedDeclaration => exact consumes_refusedDeclaration

def inOrder (limit : Option Nat) : List Alternative → Parser Node
  | [] => mismatch
  | a :: order => (a.parser limit).orElse (inOrder limit order)

theorem consumes_inOrder (limit : Option Nat) (order : List Alternative) :
    Consumes (inOrder limit order) := by
  induction order with
  | nil => exact fun _ => Result.consumed_mismatch (Nat.le_refl _)
  | cons a order ih => exact (a.consumes_alternative limit).orElse ih

theorem keeps_inOrder (limit : Option Nat) (order : List Alternative) :
    Keeps (inOrder limit order) := by
  induction order with
  | nil => exact State.Kept.refl
  | cons a order ih => exact (a.production.keeps_production limit).orElse ih

theorem inOrder_all (limit : Option Nat) : inOrder limit all = topLevel limit := by
  have hlast : (refusedDeclaration.parser limit).orElse mismatch = Parser.refusedDeclaration := by
    funext s
    change (Parser.refusedDeclaration).orElse mismatch s = _
    unfold Parser.orElse mismatch
    rcases Parser.refusedDeclaration s with ⟨n | _ | e, t⟩ <;> rfl
  simp only [all, inOrder, hlast]
  rfl

/-- Items up to the end of the input, as `unitItems` reads them, with the alternatives in an order of
their own. -/
def items (limit : Option Nat) (order : List Alternative) (root : Draft) (s : State) :
    Result Draft :=
  if s.nextKind = .eof then
    ⟨.matched root, s⟩
  else
    match _h : inOrder limit order s with
    | ⟨.matched item, t⟩ =>
      let pushed := t.append root item
      items limit order pushed.1 pushed.2
    | ⟨.mismatch, t⟩ => rejectUnit t
    | ⟨.fatal e, t⟩ => ⟨.fatal e, t⟩
termination_by s.left
decreasing_by
  have : t.left < s.left := (consumes_inOrder limit order).lt _h
  exact this

theorem items_eq (limit : Option Nat) (order : List Alternative) (root : Draft) (s : State) :
    items limit order root s =
      if s.nextKind = .eof then ⟨.matched root, s⟩
      else (((inOrder limit order).orElse rejectUnit >>= fun item => append root item) >>=
        items limit order) s := by
  rw [items]
  split
  · rfl
  · simp only [bind_apply, orElse]
    split
    · next h => simp [h, append, step]
    · next h => simp [h, rejectUnit]
    · next h => simp [h]

def unit (limit : Option Nat) (order : List Alternative) : Parser Node := do
  let root ← openNode .translationUnit 4
  let root ← items limit order root
  record fun s => .unitParsed root.children.size s.reader.line
  return root.close

theorem items_all (limit : Option Nat) (d : Draft) (s : State) :
    items limit all d s = unitItems limit d s := by
  induction hn : s.left using Nat.strongRecOn generalizing d s with
  | ind n ih =>
    subst hn
    rw [items_eq, unitItems_eq, inOrder_all]
    split
    · rfl
    · refine bind_congr_of_matched fun d' t ht => ih t.left ?_ d' t rfl
      exact (((consumes_topLevel limit).orElse consumes_rejectUnit).andThen
        fun _ => reads_append _ _).lt ht

theorem unit_all (limit : Option Nat) : unit limit all = translationUnit limit := by
  have hitems : items limit all = unitItems limit :=
    funext fun d => funext fun s => items_all limit d s
  rw [unit, hitems]
  rfl

theorem mismatch_congr (h : s.Same t) (a : Alternative) :
    (a.parser (some nestingLimit) s).outcome = .mismatch ↔
      (a.parser (some nestingLimit) t).outcome = .mismatch := by
  have hcoupled := Production.couple_production Tandem.same.coupling a.production s t h
  change (a.parser (some nestingLimit) s).Coupled _ _ (a.parser (some nestingLimit) t) at hcoupled
  generalize a.parser (some nestingLimit) s = r at hcoupled
  generalize a.parser (some nestingLimit) t = r' at hcoupled
  cases hcoupled with
  | matched _ _ => simp
  | mismatch _ => simp
  | fatal _ _ => simp
  | lost hl => exact hl.elim

theorem same_of_mismatch {a : Alternative} (hf : s.interner.Faithful)
    (h : (a.parser limit s).outcome = .mismatch) : s.Same (a.parser limit s).final :=
  .of_kept (a.production.keeps_production limit s) (Production.reader_of_mismatch h) hf

/-- Either all alternatives mismatch, or the outcome is that of the first one that does not. -/
theorem inOrder_first (order : List Alternative) (hf : s.interner.Faithful) :
    (∃ t, inOrder (some nestingLimit) order s = ⟨.mismatch, t⟩ ∧ s.Same t ∧
      ∀ a ∈ order, (a.parser (some nestingLimit) s).outcome = .mismatch) ∨
    ∃ before a after t, order = before ++ a :: after ∧ s.Same t ∧
      inOrder (some nestingLimit) order s = a.parser (some nestingLimit) t ∧
      (a.parser (some nestingLimit) s).outcome ≠ .mismatch ∧
      ∀ b ∈ before, (b.parser (some nestingLimit) s).outcome = .mismatch := by
  induction order generalizing s with
  | nil => exact .inl ⟨s, rfl, .refl hf, by simp⟩
  | cons a order ih =>
    by_cases ha : (a.parser (some nestingLimit) s).outcome = .mismatch
    · have hsame := same_of_mismatch hf ha
      -- the alternatives behind this one start where it started
      have hrest : inOrder (some nestingLimit) (a :: order) s =
          inOrder (some nestingLimit) order (a.parser (some nestingLimit) s).final :=
        orElse_of_mismatch (by rw [← ha])
      rw [hrest]
      rcases ih hsame.faithful' with ⟨t, ht, hst, hall⟩ |
        ⟨before, b, after, t, rfl, hst, ht, hb, hbefore⟩
      · refine .inl ⟨t, ht, hsame.trans hst, fun b hb => ?_⟩
        rcases List.mem_cons.mp hb with rfl | hb
        · exact ha
        · exact (mismatch_congr hsame b).mpr (hall b hb)
      · refine .inr ⟨a :: before, b, after, t, rfl, hsame.trans hst, ht,
          fun hm => hb ((mismatch_congr hsame b).mp hm), fun c hc => ?_⟩
        rcases List.mem_cons.mp hc with rfl | hc
        · exact ha
        · exact (mismatch_congr hsame c).mpr (hbefore c hc)
    · refine .inr ⟨[], a, order, s, rfl, .refl hf, ?_, ha, by simp⟩
      change (a.parser (some nestingLimit)).orElse (inOrder (some nestingLimit) order) s = _
      unfold Parser.orElse
      rcases hr : a.parser (some nestingLimit) s with ⟨n | _ | e, t⟩
      · rfl
      · exact absurd (congrArg Result.outcome hr) ha
      · rfl

/-- Every alternative is tried once, declarations of variables before definitions. -/
structure IsProper (order : List Alternative) : Prop where
  perm : order.Perm all
  sublist : forVariable.Sublist order

namespace IsProper

theorem all : IsProper all := ⟨.refl _, by decide⟩

theorem mem (h : IsProper order) (a : Alternative) : a ∈ order := h.perm.mem_iff.mpr a.mem_all

theorem mem_before (h : IsProper order) {before after : List Alternative}
    (heq : order = before ++ variableDefinition :: after) : variableDeclaration ∈ before := by
  have hnodup : order.Nodup := h.perm.nodup_iff.mpr (by decide)
  have hsub := h.sublist
  rw [heq] at hnodup hsub
  obtain ⟨-, hnodup', hdisjoint⟩ := List.nodup_append.mp hnodup
  obtain ⟨l, m, hlm, hl, hm⟩ := List.sublist_append_iff.mp hsub
  cases l with
  | nil =>
    obtain rfl : forVariable = m := hlm
    have hlast : [variableDefinition].Sublist after := by
      cases hm with
      | cons _ hm => exact (List.sublist_cons_self _ _).trans hm
    exact absurd (hlast.subset (by simp)) (List.nodup_cons.mp hnodup').1
  | cons a l =>
    obtain ⟨rfl, -⟩ := List.cons.inj hlm
    exact hl.subset (by simp)

end IsProper

/-- In two proper orders the first alternative that does not mismatch is the same. -/
theorem first_unique {order' before before' after after' : List Alternative} {a b : Alternative}
    (hf : s.interner.Faithful) (hroom : Room limit (s.depth + 3)) (ho : IsProper order)
    (ho' : IsProper order') (heq : order = before ++ a :: after)
    (heq' : order' = before' ++ b :: after') (ha : (a.parser limit s).outcome ≠ .mismatch)
    (hb : (b.parser limit s).outcome ≠ .mismatch)
    (hbefore : ∀ c ∈ before, (c.parser limit s).outcome = .mismatch)
    (hbefore' : ∀ c ∈ before', (c.parser limit s).outcome = .mismatch) : a = b := by
  rcases eq_or_forVariable hf hroom ha hb with hab | ⟨hva, hvb⟩
  · exact hab
  simp only [forVariable, List.mem_cons, List.not_mem_nil, or_false] at hva hvb
  rcases hva with rfl | rfl <;> rcases hvb with rfl | rfl
  · rfl
  · exact absurd (hbefore' _ (ho'.mem_before heq')) ha
  · exact absurd (hbefore _ (ho.mem_before heq)) hb
  · rfl

/-- At the same place a proper order comes to what the usual one comes to. -/
theorem inOrder_coupled (ho : IsProper order) (hst : s.Same t)
    (hroom : Room (some nestingLimit) (s.depth + 3)) :
    (inOrder (some nestingLimit) order s).Coupled Tandem.same.coupling
      (Nodes Tandem.same.coupling) (topLevel (some nestingLimit) t) := by
  rw [← inOrder_all]
  rcases inOrder_first order hst.faithful with ⟨s', hs', hss, hnone⟩ |
    ⟨before, a, after, s', heq, hss, hs', ha, hbefore⟩
  · rcases inOrder_first Alternative.all hst.faithful' with ⟨t', ht', htt, -⟩ |
      ⟨before', b, after', t', heq', htt, ht', hb, hbefore'⟩
    · rw [hs', ht']
      exact .mismatch (hss.symm.trans (hst.trans htt))
    · exact absurd ((mismatch_congr hst b).mp (hnone b (ho.mem b))) hb
  · rcases inOrder_first Alternative.all hst.faithful' with ⟨t', ht', htt, hnone⟩ |
      ⟨before', b, after', t', heq', htt, ht', hb, hbefore'⟩
    · exact absurd ((mismatch_congr hst a).mpr (hnone a a.mem_all)) ha
    · have hb' : (b.parser (some nestingLimit) s).outcome ≠ .mismatch :=
        fun hm => hb ((mismatch_congr hst b).mp hm)
      obtain rfl := first_unique hst.faithful hroom ho .all heq heq' ha hb' hbefore
        fun c hc => (mismatch_congr hst c).mpr (hbefore' c hc)
      rw [hs', ht']
      exact Production.couple_production Tandem.same.coupling a.production s' t'
        (hss.symm.trans (hst.trans htt))

theorem items_coupled (ho : IsProper order) {d d' : Draft} (hd : Drafts Tandem.same.coupling d d')
    (hst : s.Same t) (hroom : Room (some nestingLimit) (s.depth + 3)) :
    (items (some nestingLimit) order d s).Coupled Tandem.same.coupling
      (Drafts Tandem.same.coupling) (unitItems (some nestingLimit) d' t) := by
  induction hn : s.left using Nat.strongRecOn generalizing d d' s t with
  | ind n ih =>
    subst hn
    rw [items_eq, unitItems_eq, ← hst.nextKind]
    split
    · exact .matched hd hst
    · have htop := coupled_orElse (inOrder_coupled ho hst hroom)
        fun u v _ huv => couple_rejectUnit Tandem.same.coupling u v huv
      refine coupled_bind (coupled_bind htop fun n n' u v _ hn huv =>
        couple_append hd hn u v huv) fun d d' u v hu hd huv => ih u.left ?_ hd huv ?_ rfl
      · exact (((consumes_inOrder _ order).orElse consumes_rejectUnit).andThen
          fun _ => reads_append _ _).lt hu
      · have hkept := (((keeps_inOrder _ order).orElse keeps_rejectUnit).andThen
          fun _ => keeps_append _ _).of_eq hu
        rwa [hkept.depth]

theorem unit_coupled (ho : IsProper order) (hst : s.Same t)
    (hroom : Room (some nestingLimit) (s.depth + 3)) :
    (unit (some nestingLimit) order s).Coupled Tandem.same.coupling
      (Nodes Tandem.same.coupling) (translationUnit (some nestingLimit) t) := by
  refine coupled_bind (couple_openNode _ _ s t hst) fun d d' u v hu hd huv => ?_
  have hdepth : u.depth = s.depth := ((keeps_openNode _ _).of_eq hu).depth
  refine coupled_bind (items_coupled ho hd huv (by rwa [hdepth])) fun d d' u v _ hd huv => ?_
  have hevent := Event.Like.unitParsed d.children.size (Tandem.same.coupling.lastLine huv)
  refine .matched hd.close ?_
  simp only [← hd.size_children]
  exact Tandem.same.coupling.record huv hevent

theorem eq_of_forVariable {taking : Set Alternative}
    (h : ∀ a ∈ taking, ∀ b ∈ taking, a = b ∨ a ∈ forVariable ∧ b ∈ forVariable) :
    taking = ∅ ∨ (∃ a, taking = {a}) ∨ taking = {variableDeclaration, variableDefinition} := by
  by_cases hsub : taking.Subsingleton
  · rcases hsub.eq_empty_or_singleton with hnone | hone
    · exact .inl hnone
    · exact .inr (.inl hone)
  · obtain ⟨a, ha, b, hb, hne⟩ := Set.not_subsingleton_iff.mp hsub
    obtain ⟨hva, hvb⟩ := (h a ha b hb).resolve_left hne
    have hall (c : Alternative) (hc : c ∈ forVariable) : c = a ∨ c = b := by
      revert hva hvb hc hne
      cases a <;> cases b <;> cases c <;> decide
    refine .inr (.inr (Set.Subset.antisymm (fun c hc => ?_) ?_))
    · have hvc : c ∈ forVariable := by
        rcases h a ha c hc with rfl | ⟨-, hvc⟩
        · exact hva
        · exact hvc
      simpa [forVariable] using hvc
    · intro c hc
      rcases hall c (by simpa [forVariable] using hc) with rfl | rfl
      · exact ha
      · exact hb

/-- At most one alternative does not mismatch, but for the two for variables behind an `extern`.
Hence their order does not matter, if declarations of variables come before definitions. -/
theorem alternatives_exclusive (tokens : List Token) (cursor : Cursor) (arena : Arena)
    (interner : Interner) (log : List Event) (hf : interner.Faithful) :
    let s : State := ⟨Reader.ofTokens tokens cursor, 0, arena, interner, log⟩
    let run (a : Alternative) := a.parser (some nestingLimit) s
    let taking : Set Alternative := {a | (run a).outcome ≠ .mismatch}
    (taking = ∅ ∨ (∃ a, taking = {a}) ∨ taking = {variableDeclaration, variableDefinition}) ∧
    (taking = {variableDeclaration, variableDefinition} →
      ∃ n n', (run variableDeclaration).outcome = .matched n ∧
        (run variableDefinition).outcome = .matched n' ∧
        (run variableDeclaration).final.reader = (run variableDefinition).final.reader ∧
        s.nextKind = .kwExtern ∧ n.SameButExtern n') ∧
    (∀ a e, (run a).outcome = .fatal e → a = functionDefinition ∨ a = refusedDeclaration) ∧
    ∀ order, IsProper order →
      let r := unit (some nestingLimit) order s
      let r' := translationUnit (some nestingLimit) s
      r.outcome.Like Eq (SameText True) r'.outcome ∧ r.final.reader = r'.final.reader := by
  intro s run taking
  have hroom : Room (some nestingLimit) (s.depth + 3) :=
    room_nestingLimit.mono (show 0 + 3 ≤ 4 by decide)
  refine ⟨?_, ?_, fun a e he => eq_of_fatal hroom he, ?_⟩
  · exact eq_of_forVariable fun a ha b hb => eq_or_forVariable hf hroom ha hb
  · intro h
    -- neither of the two can fail
    have hmatched (a : Alternative) (ha : a ∈ taking) (hv : a ∈ forVariable) :
        ∃ n, (run a).outcome = .matched n := by
      cases hr : (run a).outcome with
      | matched n => exact ⟨n, rfl⟩
      | mismatch => exact absurd hr ha
      | fatal e =>
        rcases eq_of_fatal hroom hr with rfl | rfl <;> simp [forVariable] at hv
    obtain ⟨n, hn⟩ := hmatched variableDeclaration (by simp [h]) (by simp [forVariable])
    obtain ⟨n', hn'⟩ := hmatched variableDefinition (by simp [h]) (by simp [forVariable])
    have hrun : Parser.variableDeclaration (some nestingLimit) s =
      ⟨.matched n, (run variableDeclaration).final⟩ := by rw [← hn]; rfl
    have hrun' : Parser.variableDefinition (some nestingLimit) s =
      ⟨.matched n', (run variableDefinition).final⟩ := by rw [← hn']; rfl
    exact ⟨n, n', hn, hn', sameButExtern hf hrun hrun'⟩
  · intro order ho r r'
    have hcoupled : r.Coupled _ _ r' := unit_coupled ho (.refl hf) hroom
    generalize r = r at hcoupled
    generalize r' = r' at hcoupled
    cases hcoupled with
    | matched hn hst => exact ⟨.matched hn, hst.readers⟩
    | mismatch hst => exact ⟨.mismatch, hst.readers⟩
    | fatal he hst => exact ⟨.fatal he, hst.readers⟩
    | lost hl => exact hl.elim

/-- `extern const int x;` over two lines, which is a declaration and a definition. -/
theorem alternatives_exclusive_extern :
    let tokens := [Token.plain .kwExtern, .plain .kwConst, .newline, .plain .kwInt, .ident "x",
      .plain .semicolon]
    let s : State := ⟨Reader.ofTokens tokens .start, 0, .ofCapacity .packed 4096, .empty, []⟩
    let run (a : Alternative) := a.parser (some nestingLimit) s
    let order := [refusedDeclaration, functionDefinition, variableDeclaration, functionDeclaration,
      variableDefinition]
    Interner.empty.Faithful ∧
      {a | (run a).outcome ≠ .mismatch} = {variableDeclaration, variableDefinition} ∧
      (∃ n n', (run variableDeclaration).outcome = .matched n ∧
        (run variableDefinition).outcome = .matched n' ∧
        (run variableDeclaration).final.reader = (run variableDefinition).final.reader ∧
        s.nextKind = .kwExtern ∧ n.SameButExtern n') ∧
      IsProper order ∧
      (unit (some nestingLimit) order s).outcome.Like Eq (SameText True)
        (translationUnit (some nestingLimit) s).outcome := by
  intro tokens s run order
  obtain ⟨hsets, hboth, -, horders⟩ := alternatives_exclusive tokens .start (.ofCapacity .packed 4096)
    .empty [] Interner.faithful_empty
  have hdeclaration : (run variableDeclaration).outcome ≠ .mismatch := by
    have hmatched : ∃ n, (run variableDeclaration).outcome = .matched n := ⟨_, rfl⟩
    obtain ⟨n, hn⟩ := hmatched
    simp [hn]
  have hdefinition : (run variableDefinition).outcome ≠ .mismatch := by
    have hmatched : ∃ n, (run variableDefinition).outcome = .matched n := ⟨_, rfl⟩
    obtain ⟨n, hn⟩ := hmatched
    simp [hn]
  have htaking : {a | (run a).outcome ≠ .mismatch} = {variableDeclaration, variableDefinition} := by
    rcases hsets with h | ⟨a, h⟩ | h
    · exact absurd (h ▸ hdeclaration : variableDeclaration ∈ (∅ : Set Alternative)) (by simp)
    · have h₁ : variableDeclaration ∈ ({a} : Set Alternative) := h ▸ hdeclaration
      have h₂ : variableDefinition ∈ ({a} : Set Alternative) := h ▸ hdefinition
      rw [Set.mem_singleton_iff] at h₁ h₂
      simp [← h₁] at h₂
    · exact h
  have horder : IsProper order := ⟨by decide, by decide⟩
  exact ⟨Interner.faithful_empty, htaking, hboth htaking, horder, (horders order horder).1⟩

end Alternative

end MiniC
