import MiniC.Proofs.Memory.Charge

namespace MiniC

open Grammar

namespace State

variable {s t : State} {P : TokenKind → Bool}

/-- How many tokens come before the first of another kind. -/
def run (P : TokenKind → Bool) (s : State) : Nat := (s.kinds.takeWhile P).length

theorem left_eq_length (s : State) : s.left = s.kinds.length := (List.length_map _).symm

theorem run_le_left (s : State) (P : TokenKind → Bool) : s.run P ≤ s.left := by
  rw [left_eq_length]
  exact (List.takeWhile_prefix P).length_le

theorem run_all (s : State) : s.run (fun _ => true) = s.left := by
  rw [run, List.takeWhile_eq_self_iff.mpr fun _ _ => rfl, left_eq_length]

theorem run_of_pending (h : t.pending = s.pending) (P : TokenKind → Bool) : t.run P = s.run P := by
  rw [run, kinds, h, run, kinds]

theorem left_of_pending (h : t.pending = s.pending) : t.left = s.left := congrArg List.length h

theorem kinds_eq_cons (h : s.nextKind ≠ .eof) : s.kinds = s.nextKind :: s.skip.kinds :=
  congrArg (List.map Token.kind) (Reader.pending_eq_cons h)

theorem left_eq_succ (h : s.nextKind ≠ .eof) : s.left = s.skip.left + 1 := by
  rw [left_eq_length, kinds_eq_cons h, List.length_cons, left_eq_length]

theorem pending_skip_subset {pool : List Token} (hs : s.pending ⊆ pool) (h : s.nextKind ≠ .eof) :
    s.skip.pending ⊆ pool := fun x hx => by
  apply hs
  rw [pending, Reader.pending_eq_cons h]
  exact List.mem_cons_of_mem _ hx

theorem pending_addLeaf_eq (s : State) (d : Draft) : (s.addLeaf d).2.pending = s.skip.pending :=
  congrArg Reader.pending (State.reader_addLeaf s d)

theorem run_eq_zero (h : P s.nextKind = false) : s.run P = 0 := by
  by_cases hne : s.nextKind = .eof
  · rw [run, kinds, pending_eq_nil_iff.mpr hne]
    rfl
  · rw [run, kinds_eq_cons hne, List.takeWhile_cons_of_neg (by simp [h])]
    rfl

theorem run_eq_succ (h : P s.nextKind = true) (hne : s.nextKind ≠ .eof) :
    s.run P = s.skip.run P + 1 := by
  rw [run, kinds_eq_cons hne, List.takeWhile_cons_of_pos h, List.length_cons, run]

theorem run_le_succ (P : TokenKind → Bool) (hne : s.nextKind ≠ .eof) :
    s.run P ≤ s.skip.run P + 1 := by
  cases h : P s.nextKind with
  | false => rw [run_eq_zero h]; exact Nat.zero_le _
  | true => exact Nat.le_of_eq (run_eq_succ h hne)

theorem Kept.run_add_left_le (h : s.Kept t) (hstop : P t.nextKind = false) :
    s.run P + t.left ≤ s.left := by
  obtain ⟨v, hv⟩ := h.reaches.pending_suffix
  have hkinds : s.kinds = v.map Token.kind ++ t.kinds := by
    rw [kinds, kinds, ← List.map_append]
    exact congrArg (List.map Token.kind) hv.symm
  have hzero : t.kinds.takeWhile P = [] := List.length_eq_zero_iff.mp (run_eq_zero hstop)
  have hrun : s.run P ≤ (v.map Token.kind).length := by
    rw [run, hkinds, List.takeWhile_append, hzero]
    split
    · rw [List.append_nil]
    · exact (List.takeWhile_prefix P).length_le
  have hleft : s.left = (v.map Token.kind).length + t.left := by
    rw [left_eq_length, left_eq_length, hkinds, List.length_append]
  omega

end State

/-- What is charged in advance for the next tokens: so much for each of them, up to the first that
is of a kind which is not covered. -/
structure Tariff where
  pool : List Token
  covers : TokenKind → Bool
  rate : Nat

namespace Tariff

/-- The charge for what was taken so far and for the next tokens. -/
def bill (T : Tariff) (s : State) : Nat := s.charge T.pool + T.rate * s.run T.covers

/-- What a variable is read from is covered, at a rate that is high enough. -/
structure ForVariables (T : Tariff) : Prop where
  typePart : ∀ k, isTypePart k = true → T.covers k = true
  ident : T.covers .ident = true
  rate : 200 ≤ T.rate

structure ForSignatures (T : Tariff) : Prop extends T.ForVariables where
  lParen : T.covers .lParen = true
  rParen : T.covers .rParen = true
  comma : T.covers .comma = true

/-- Every token pays, and so much that all attempts at what it begins are paid for. -/
def full (pool : List Token) : Tariff := ⟨pool, fun _ => true, 1024⟩

variable {T : Tariff} {s : State}

theorem full_forSignatures (pool : List Token) : (full pool).ForSignatures :=
  ⟨⟨fun _ _ => rfl, rfl, by simp [full]⟩, rfl, rfl, rfl⟩

theorem full_bill (pool : List Token) (s : State) :
    (full pool).bill s = s.charge pool + 1024 * s.left := by
  simp only [bill, full, State.run_all]

theorem charge_le_bill (T : Tariff) (s : State) : s.charge T.pool ≤ T.bill s := Nat.le_add_right _ _

theorem bill_skip (h : T.covers s.nextKind = true) (hne : s.nextKind ≠ .eof) :
    T.bill s.skip + T.rate = T.bill s := by
  rw [bill, bill, State.run_eq_succ h hne, State.charge_skip, Nat.mul_succ, Nat.add_assoc]

theorem bill_addLeaf_le (hT : T.ForVariables) (d : Draft) (hs : s.pending ⊆ T.pool)
    (h : T.covers s.nextKind = true) (hne : s.nextKind ≠ .eof) :
    T.bill (s.addLeaf d).2 + (s.addLeaf d).1.credit ≤ T.bill s + d.credit := by
  have hcharge := State.charge_addLeaf_le d hs hne
  have hskip := bill_skip h hne
  have hrate := hT.rate
  have hrun : (s.addLeaf d).2.run T.covers = s.skip.run T.covers :=
    State.run_of_pending (s.pending_addLeaf_eq d) _
  unfold bill at hskip ⊢
  rw [hrun]
  rw [State.charge_skip] at hskip
  omega

end Tariff

/-- The charge stays within a bound, and after a match so does the bill, with what is kept for the
result. -/
inductive Result.Within {α : Type} (T : Tariff) (most : Nat) (kept : α → Nat) : Result α → Prop
  | matched {a : α} {t : State} :
      t.pending ⊆ T.pool → T.bill t + kept a ≤ most → Within T most kept ⟨.matched a, t⟩
  | mismatch {t : State} : t.charge T.pool ≤ most → Within T most kept ⟨.mismatch, t⟩
  | fatal {e : ParseError} {t : State} : t.charge T.pool ≤ most → Within T most kept ⟨.fatal e, t⟩

namespace Result.Within

variable {α : Type} {T : Tariff} {most : Nat} {kept kept' : α → Nat} {r : Result α}

theorem mono (h : r.Within T most kept) (hk : ∀ a, kept' a ≤ kept a) : r.Within T most kept' := by
  cases h with
  | matched ht h => exact .matched ht (Nat.le_trans (Nat.add_le_add_left (hk _) _) h)
  | mismatch h => exact .mismatch h
  | fatal h => exact .fatal h

theorem charge_le (h : r.Within T most kept) : r.final.charge T.pool ≤ most := by
  cases h with
  | @matched a t _ h =>
    have hcharge := T.charge_le_bill t
    exact Nat.le_trans hcharge (Nat.le_trans (Nat.le_add_right _ _) h)
  | mismatch h => exact h
  | fatal h => exact h

end Result.Within

namespace Parser

variable {α β : Type} {T : Tariff} {c e : Nat} {p : Parser α} {f : α → Parser β} {s : State}
  {limit : Option Nat}

/-- Of what is paid before and for the tokens to come, so much is left after a match. -/
def Spends (T : Tariff) (before : Nat) (p : Parser α) (kept : α → Nat) : Prop :=
  ∀ (s : State) (most : Nat), s.pending ⊆ T.pool → T.bill s + before ≤ most →
    (p s).Within T most kept

theorem within_tryRule {most : Nat} {kept : α → Nat} {rule : Rule} (hm : s.charge T.pool ≤ most)
    (h : (p (s.enter rule)).Within T most kept) :
    (Parser.tryRule limit rule p s).Within T most kept := by
  unfold Parser.tryRule
  split
  · exact .fatal hm
  · generalize p (s.enter rule) = r at h
    cases h with
    | matched ht h => exact .matched ht h
    | mismatch h => exact .mismatch h
    | fatal h => exact .fatal h

theorem spends_pure (a : α) (kept : α → Nat) : Spends T (kept a) (pure a) kept :=
  fun _ _ hs hm => .matched hs hm

section Within

variable {most : Nat} {kept kept' : α → Nat} {rest : β → Nat} {q : Parser α}

theorem within_bind (hp : (p s).Within T most kept)
    (hf : ∀ a t, p s = ⟨.matched a, t⟩ → t.pending ⊆ T.pool → T.bill t + kept a ≤ most →
      (f a t).Within T most rest) : ((p >>= f) s).Within T most rest := by
  rw [bind_apply]
  rcases hr : p s with ⟨a | _ | e, t⟩
  · rw [hr] at hp
    cases hp with
    | matched ht hk => exact hf a t hr ht hk
  · rw [hr] at hp
    cases hp with
    | mismatch h => exact .mismatch h
  · rw [hr] at hp
    cases hp with
    | fatal h => exact .fatal h

theorem within_orElse (hp : (p s).Within T most kept)
    (hq : ∀ t, p s = ⟨.mismatch, t⟩ → (q t).Within T most kept) :
    ((p.orElse q) s).Within T most kept := by
  unfold Parser.orElse
  rcases hr : p s with ⟨a | _ | e, t⟩
  · rwa [hr] at hp
  · exact hq t hr
  · rwa [hr] at hp

end Within

namespace Spends

variable {kept kept' : α → Nat} {rest : β → Nat}

theorem andThen (hp : Spends T c p kept) (hf : ∀ a, Spends T (kept a) (f a) rest) :
    Spends T c (p >>= f) rest := by
  intro s most hs hm
  exact within_bind (hp s most hs hm) fun a t _ ht hk => hf a t most ht hk

theorem mono (hp : Spends T c p kept) (hc : c ≤ e) (hk : ∀ a, kept' a ≤ kept a) :
    Spends T e p kept' := by
  intro s most hs hm
  exact (hp s most hs (Nat.le_trans (Nat.add_le_add_left hc _) hm)).mono hk

theorem tryRule (hp : Spends T c p kept) (limit : Option Nat) (rule : Rule) :
    Spends T c (Parser.tryRule limit rule p) kept := by
  intro s most hs hm
  have hcharge := T.charge_le_bill s
  exact within_tryRule (by omega) (hp (s.enter rule) most hs hm)

end Spends

theorem spends_step {g : State → α × State} {kept : α → Nat}
    (hreader : ∀ s, (g s).2.reader = s.reader)
    (hcharge : ∀ s, (g s).2.charge T.pool + kept (g s).1 ≤ s.charge T.pool + c) :
    Spends T c (step g) kept := by
  intro s most hs hm
  have hpending : (g s).2.pending = s.pending := congrArg Reader.pending (hreader s)
  have hg := hcharge s
  refine .matched (hpending ▸ hs) ?_
  unfold Tariff.bill at hm ⊢
  rw [State.run_of_pending hpending]
  omega

theorem spends_nextKind (c : Nat) : Spends T c nextKind fun _ => c :=
  spends_step (fun _ => rfl) fun _ => Nat.le_refl _

theorem spends_nextLine (c : Nat) : Spends T c nextLine fun _ => c :=
  spends_step (fun _ => rfl) fun _ => Nat.le_refl _

theorem spends_openNode (kind : NodeKind) {wanted : Nat} (h : wanted ≤ 4) (c : Nat) :
    Spends T (c + 100) (openNode kind wanted) fun d => c + d.credit := by
  refine spends_step (fun _ => rfl) fun s => ?_
  have hnode := s.charge_openNode_le T.pool kind h
  have hcredit := Draft.credit_empty kind s.nextLine wanted
  change _ + (c + (Draft.empty kind s.nextLine wanted).credit) ≤ _
  omega

theorem spends_append (d : Draft) (child : Node) (c : Nat) :
    Spends T (c + d.credit + 48) (append d child) fun d' => c + d'.credit := by
  refine spends_step (fun _ => rfl) fun s => ?_
  have happend := s.charge_append_le T.pool d child
  omega

theorem within_child {most : Nat} {p : Parser Node} {d : Draft} {next : Draft → Parser Draft}
    {rest : Draft → Nat} (hp : (p s).Within T most fun _ => c + d.credit + 48)
    (hnext : ∀ child u, p s = ⟨.matched child, u⟩ →
      let pushed := u.append d child
      pushed.2.pending ⊆ T.pool → T.bill pushed.2 + (c + pushed.1.credit) ≤ most →
      (next pushed.1 pushed.2).Within T most rest) :
    (((p >>= fun child => append d child) >>= next) s).Within T most rest := by
  have happend := within_bind hp fun child u _ hu hk => spends_append d child c u most hu hk
  refine within_bind happend fun d' t ht hpending hk => ?_
  obtain ⟨child, u, hu, hpushed⟩ := bind_eq_matched ht
  obtain ⟨rfl, rfl⟩ := step_eq_matched hpushed
  exact hnext child u hu hpending hk

theorem spends_expect {k : TokenKind} (hT : T.covers k = true) (hk : k ≠ .eof) (c : Nat) :
    Spends T c (expect k) fun _ => c + T.rate := by
  intro s most hs hm
  unfold expect
  split
  · next h =>
    have hskip := T.bill_skip (s := s) (h ▸ hT) (h ▸ hk)
    exact .matched (State.pending_skip_subset hs (h ▸ hk)) (by omega)
  · exact .mismatch (Nat.le_trans (T.charge_le_bill s) (by omega))

theorem within_addLeaf {most : Nat} (hT : T.ForVariables) (d : Draft) (hs : s.pending ⊆ T.pool)
    (h : T.covers s.nextKind = true) (hne : s.nextKind ≠ .eof)
    (hm : T.bill s + (c + d.credit) ≤ most) :
    (step (·.addLeaf d) s).Within T most fun d' => c + d'.credit := by
  have hbill := T.bill_addLeaf_le hT d hs h hne
  have hafter : T.bill (s.addLeaf d).2 + (c + (s.addLeaf d).1.credit) ≤ most := by omega
  refine .matched ?_ hafter
  rw [s.pending_addLeaf_eq d]
  exact State.pending_skip_subset hs hne

section Leaf

variable {property : TokenKind → Bool} (hT : T.ForVariables) (h : property .eof = false)
  (hcovers : ∀ k, property k = true → T.covers k = true) (d : Draft) (c : Nat)

include hT h hcovers

theorem spends_requiredLeaf :
    Spends T (c + d.credit) (requiredLeaf property d) fun d' => c + d'.credit := by
  intro s most hs hm
  unfold requiredLeaf
  split
  · next hk =>
    exact within_addLeaf hT d hs (hcovers _ hk) (fun he => by simp [he, h] at hk) hm
  · exact .mismatch (Nat.le_trans (T.charge_le_bill s) (by omega))

theorem spends_optionalLeaf :
    Spends T (c + d.credit) (optionalLeaf property d) fun d' => c + d'.credit := by
  intro s most hs hm
  unfold optionalLeaf
  split
  · next hk =>
    exact within_addLeaf hT d hs (hcovers _ hk) (fun he => by simp [he, h] at hk) hm
  · exact .matched hs hm

end Leaf

theorem spends_identifier (hT : T.ForVariables) (c : Nat) :
    Spends T c identifier fun _ => c + 100 := by
  intro s most hs hm
  unfold identifier
  split
  · next hk =>
    have hne : s.nextKind ≠ .eof := by simp [hk]
    have hpending : s.takeLeaf.2.pending = s.skip.pending :=
      congrArg Reader.pending s.reader_takeLeaf
    have hcharge := State.charge_takeLeaf_le hs hne
    have hskip := T.bill_skip (hk ▸ hT.ident) hne
    have hrate := hT.rate
    refine .matched (hpending ▸ State.pending_skip_subset hs hne) ?_
    unfold Tariff.bill at hskip hm ⊢
    rw [State.charge_skip] at hskip
    rw [State.run_of_pending hpending]
    omega
  · exact .mismatch (Nat.le_trans (T.charge_le_bill s) (by omega))

theorem charge_foldl_append_le (pool : List Token) (children : List Node) (start : Draft × State) :
    let final := children.foldl (fun (d, t) child => t.append d child) start
    final.2.reader = start.2.reader ∧ final.2.charge pool + final.1.credit ≤
      start.2.charge pool + start.1.credit + 48 * children.length := by
  induction children generalizing start with
  | nil => exact ⟨rfl, Nat.le_refl _⟩
  | cons child children ih =>
    obtain ⟨hreader, hcharge⟩ := ih (start.2.append start.1 child)
    have happend := start.2.charge_append_le pool start.1 child
    refine ⟨hreader, ?_⟩
    rw [List.foldl_cons, List.length_cons]
    simp only at hcharge ⊢
    omega

theorem spends_nodeOf (kind : NodeKind) (line : Nat) {children : List Node}
    (h : children.length ≤ 4) (c : Nat) :
    Spends T (c + 300) (nodeOf kind line children) fun _ => c := by
  intro s most hs hm
  let d := Draft.empty kind line children.length
  let opened := s.withArena (s.arena.reserveAll d.requests)
  obtain ⟨hreader, hchildren⟩ := charge_foldl_append_le T.pool children (d, opened)
  have hnode : opened.charge T.pool ≤ s.charge T.pool + 100 := s.charge_openNode_le _ kind h
  have hcredit : d.credit = 0 := Draft.credit_empty kind line children.length
  have hpending : (nodeOf kind line children s).final.pending = s.pending :=
    congrArg Reader.pending hreader
  have hcharge : (nodeOf kind line children s).final.charge T.pool ≤ s.charge T.pool + 292 := by
    have hfinal : (nodeOf kind line children s).final.charge T.pool + _ ≤ _ := hchildren
    simp only at hfinal
    omega
  refine .matched (t := (nodeOf kind line children s).final) (hpending ▸ hs) ?_
  unfold Tariff.bill at hm ⊢
  rw [State.run_of_pending hpending]
  omega

/-- What does not match takes no more than is paid before and for the tokens to come. -/
def Wastes (T : Tariff) (before : Nat) (p : Parser α) : Prop :=
  ∀ s, s.pending ⊆ T.pool → (∀ a, (p s).outcome ≠ .matched a) →
    (p s).final.charge T.pool ≤ T.bill s + before

/-- Where a rule fails, another one can be tried on the same tokens. -/
theorem Wastes.of_mismatch {t : State} {rule : Rule} (hp : Wastes T c (tryRule limit rule p))
    (hs : s.pending ⊆ T.pool) (h : tryRule limit rule p s = ⟨.mismatch, t⟩) :
    t.pending ⊆ T.pool ∧ t.left = s.left ∧ t.run T.covers = s.run T.covers ∧
      t.charge T.pool ≤ s.charge T.pool + T.rate * s.run T.covers + c := by
  have hpending : t.pending = s.pending := (tryRule_eq_mismatch h).2.1
  have hwaste := hp s hs (by simp [h])
  rw [h] at hwaste
  exact ⟨hpending ▸ hs, State.left_of_pending hpending, State.run_of_pending hpending _, hwaste⟩

theorem Wastes.tryRule (hp : Wastes T c p) (limit : Option Nat) (rule : Rule) :
    Wastes T c (Parser.tryRule limit rule p) := by
  intro s hs hne
  unfold Parser.tryRule at hne ⊢
  split at hne
  · next hfull =>
    rw [if_pos hfull]
    exact Nat.le_trans (T.charge_le_bill s) (Nat.le_add_right _ _)
  · next hroom =>
    rw [if_neg hroom]
    have h := hp (s.enter rule) hs
    generalize p (s.enter rule) = r at h hne
    rcases r with ⟨a | _ | _, t⟩
    · exact absurd rfl (hne a)
    · exact h (by simp)
    · exact h (by simp)

section Stop

variable {kept : α → Nat} {rest : β → Nat} {k : TokenKind} {g : α → Parser β}

theorem wastes_of_stop (hp : Spends T c p kept)
    (hg : ∀ a t, ∃ b, (g a t).outcome = .matched b) :
    Wastes T c (p >>= fun a => expect k >>= fun _ => g a) := by
  intro s hs hne
  have h := hp s _ hs (Nat.le_refl _)
  rw [bind_apply] at hne ⊢
  generalize p s = r at h hne
  cases h with
  | @matched a t ht hm =>
    rw [Result.andThen_matched, bind_apply, expect] at hne ⊢
    split at hne
    · obtain ⟨b, hb⟩ := hg a t.skip
      exact absurd hb (hne b)
    · next hk =>
      rw [if_neg hk]
      exact Nat.le_trans (T.charge_le_bill t) (by omega)
  | mismatch h => exact h
  | fatal h => exact h

/-- The tokens up to a token that is not covered were read, so that they pay in full as well. What
they pay too much makes up for attempts that were made before. -/
theorem within_of_stop {most : Nat} (hp : Spends T c p kept) (hkeeps : Keeps p)
    (hstop : T.covers k = false) (hne : k ≠ .eof) (hrate : T.rate ≤ 1024)
    (hg : ∀ a, Spends (.full T.pool) (kept a + 1024) (g a) rest) (hs : s.pending ⊆ T.pool)
    (hm : s.charge T.pool + c + 1024 * s.left ≤ most + (1024 - T.rate) * s.run T.covers) :
    ((p >>= fun a => expect k >>= fun _ => g a) s).Within (.full T.pool) most rest := by
  have hsplit : (1024 - T.rate) * s.run T.covers + T.rate * s.run T.covers =
      1024 * s.run T.covers := by rw [← Nat.add_mul, Nat.sub_add_cancel hrate]
  have hrun := s.run_le_left T.covers
  have hbill : T.bill s = s.charge T.pool + T.rate * s.run T.covers := rfl
  have hmost : T.bill s + c ≤ most := by omega
  have h := hp s _ hs (Nat.le_refl _)
  rw [bind_apply]
  rcases hr : p s with ⟨a | _ | e, t⟩
  · rw [hr] at h
    cases h with
    | matched ht hkept =>
      have hcharge := T.charge_le_bill t
      rw [Result.andThen_matched, bind_apply, expect]
      split
      · next hk =>
        -- the row ends before this token, so what its tokens have not paid is left for the rest
        have hread := (hkeeps.of_eq hr).run_add_left_le (P := T.covers) (hk ▸ hstop)
        have hleft := State.left_eq_succ (hk ▸ hne)
        have hskip : t.skip.charge T.pool = t.charge T.pool := rfl
        refine hg a _ _ (State.pending_skip_subset ht (hk ▸ hne)) ?_
        rw [Tariff.full_bill]
        omega
      · exact .mismatch (show t.charge T.pool ≤ most by omega)
  · rw [hr] at h
    cases h with
    | mismatch h => exact .mismatch (Nat.le_trans h hmost)
  · rw [hr] at h
    cases h with
    | fatal h => exact .fatal (Nat.le_trans h hmost)

end Stop

end Parser

end MiniC
