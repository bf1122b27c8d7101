import MiniC.Proofs.Parsing.Program

namespace MiniC

open Syntax

/-- The kind of the first of some tokens, which is `eof` if there are none. -/
def firstKind (tokens : List Token) : TokenKind := (tokens.head?.map Token.kind).getD .eof

theorem State.nextKind_eq_firstKind (s : State) : s.nextKind = firstKind s.pending := by
  cases h : s.pending with
  | nil => exact pending_eq_nil_iff.mp h
  | cons x rest => exact nextKind_of_pending h

/-- The first kind of a text, or the one that comes behind it. -/
def Syntax.leadKind (p : List Sign) (behind : TokenKind) : TokenKind :=
  (p.head?.map Sign.kind).getD behind

theorem Syntax.WrittenUpTo.firstKind_eq {p : List Sign} {l r : List Token}
    (h : WrittenUpTo p l r) : firstKind l = leadKind p (firstKind r) := by
  cases p with
  | nil => rw [h.eq_of_nil]; rfl
  | cons g p =>
    obtain ⟨x, m, rfl, hx, -⟩ := h.uncons
    exact hx.kind_eq

theorem State.nextKind_eq_leadKind {s : State} {p : List Sign} {rest : List Token}
    (h : WrittenUpTo p s.pending rest) : s.nextKind = leadKind p (firstKind rest) :=
  s.nextKind_eq_firstKind.trans h.firstKind_eq

/-- The tokens end with a significant one, unless there are none. -/
def EndsSignificant (tokens : List Token) : Prop := ∀ x ∈ tokens.getLast?, x.isSignificant

theorem EndsSignificant.append {a b : List Token} (ha : EndsSignificant a)
    (hb : EndsSignificant b) : EndsSignificant (a ++ b) := by
  cases b with
  | nil => rwa [List.append_nil]
  | cons x b =>
    intro y hy
    rw [List.getLast?_append_of_ne_nil a (List.cons_ne_nil x b)] at hy
    exact hb y hy

theorem EndsSignificant.eq_of_prefix {a b : List Token} (hb : EndsSignificant b) (h : a <+: b)
    (hcount : a.countP (·.isSignificant) = b.countP (·.isSignificant)) : a = b := by
  obtain ⟨c, rfl⟩ := h
  have hnone : c.countP (·.isSignificant) = 0 := by
    rw [List.countP_append] at hcount
    omega
  cases hc : c.getLast? with
  | none => rw [List.getLast?_eq_none_iff.mp hc, List.append_nil]
  | some x =>
    have hx : x ∈ c := List.mem_of_getLast? hc
    have hlast : (a ++ c).getLast? = some x := by
      rw [List.getLast?_append_of_ne_nil a (List.ne_nil_of_mem hx), hc]
    exact absurd (hb x hlast) (List.countP_eq_zero.mp hnone x hx)

/-- Of the beginnings of a list that end so, each is told by the number of its significant tokens. -/
theorem EndsSignificant.unique {a b l m : List Token} (ha : EndsSignificant a)
    (hb : EndsSignificant b) (h : a ++ l = b ++ m)
    (hcount : a.countP (·.isSignificant) = b.countP (·.isSignificant)) : a = b := by
  have hpa : a <+: b ++ m := ⟨l, h⟩
  rcases List.prefix_or_prefix_of_prefix hpa (List.prefix_append b m) with hp | hp
  · exact hb.eq_of_prefix hp hcount
  · exact (ha.eq_of_prefix hp hcount.symm).symm

namespace Reader

/-- The reader `t` is where `r` comes to behind the tokens `passed`. -/
structure Passes (r : Reader) (passed : List Token) (t : Reader) : Prop where
  ahead : r.ahead = passed ++ t.ahead
  index : t.cursor.index = r.cursor.index + passed.length
  line : t.cursor.line = r.cursor.line + passed.countP (!·.isSignificant)
  ends : EndsSignificant passed

namespace Passes

variable {r t u : Reader} {a b : List Token}

theorem refl (r : Reader) : r.Passes [] r := ⟨rfl, rfl, rfl, by simp [EndsSignificant]⟩

theorem trans (h : r.Passes a t) (k : t.Passes b u) : r.Passes (a ++ b) u := by
  have hahead : r.ahead = (a ++ b) ++ u.ahead := by rw [h.ahead, k.ahead, List.append_assoc]
  have hindex := k.index
  have hline := k.line
  rw [h.index] at hindex
  rw [h.line] at hline
  refine ⟨hahead, ?_, ?_, h.ends.append k.ends⟩
  · rw [hindex, List.length_append, Nat.add_assoc]
  · rw [hline, List.countP_append, Nat.add_assoc]

theorem cursor_eq {r' t' : Reader} (h : r.Passes a t) (k : r'.Passes a t')
    (hr : r.cursor = r'.cursor) : t.cursor = t'.cursor := by
  have hindex : t.cursor.index = t'.cursor.index := by rw [h.index, k.index, hr]
  have hline : t.cursor.line = t'.cursor.line := by rw [h.line, k.line, hr]
  generalize t.cursor = c at hindex hline ⊢
  generalize t'.cursor = c' at hindex hline ⊢
  cases c
  cases c'
  exact congrArg₂ Cursor.mk hindex hline

theorem nextLine_eq (h : r.Passes a t) :
    t.nextLine = r.cursor.line + a.countP (!·.isSignificant) +
      (t.ahead.takeWhile (!·.isSignificant)).length := by
  rw [nextLine, h.line]

end Passes

theorem passes_consumeIn (ts : List Token) (c : Cursor) (h : (peekIn ts 0).kind ≠ .eof) :
    ∃ lines, lines.filter (·.isSignificant) = [] ∧
      Passes ⟨ts, c⟩ (lines ++ [peekIn ts 0]) (consumeIn ts c).2 := by
  induction ts generalizing c with
  | nil => exact absurd rfl h
  | cons x ts ih =>
    by_cases hx : x.isSignificant
    · refine ⟨[], rfl, ?_⟩
      simp only [peekIn, consumeIn, hx, if_true, List.nil_append]
      exact ⟨rfl, rfl, by simp [hx], by simp [EndsSignificant, hx]⟩
    · simp only [peekIn, consumeIn, hx, Bool.false_eq_true, if_false] at h ⊢
      obtain ⟨lines, hlines, hone⟩ := ih ⟨c.index + 1, c.line + 1⟩ h
      have hindex := hone.index
      have hline := hone.line
      refine ⟨x :: lines, by simpa [hx] using hlines, congrArg (x :: ·) hone.ahead, ?_, ?_, ?_⟩
      · rw [hindex, List.cons_append, List.length_cons]
        simp only
        omega
      · rw [hline, List.cons_append, List.countP_cons_of_pos (by simp [hx])]
        simp only
        omega
      · intro y hy
        rw [List.cons_append, List.getLast?_cons_of_ne_nil (by simp)] at hy
        exact hone.ends y hy

/-- A reader goes on by passing tokens before the end of the input. -/
theorem Reaches.passes {r t : Reader} (h : r.Reaches t) :
    ∃ passed, r.Passes passed t ∧ r.pending = passed.filter (·.isSignificant) ++ t.pending := by
  induction h with
  | refl r => exact ⟨[], .refl r, rfl⟩
  | @read r t hr _ ih =>
    obtain ⟨lines, hlines, hone⟩ := passes_consumeIn r.ahead r.cursor hr
    obtain ⟨passed, hpassed, hpending⟩ := ih
    have hnext : r.next.isSignificant := hone.ends _ (by simp [next, peek])
    refine ⟨(lines ++ [r.next]) ++ passed, Passes.trans (t := r.rest) hone hpassed, ?_⟩
    rw [pending_eq_cons hr, hpending, List.filter_append, List.filter_append, hlines]
    simp [hnext]

/-- The reader `t` stands right behind the text `p`, which is written from `r` on. -/
def PassesText (r : Reader) (p : List Sign) (t : Reader) : Prop :=
  ∃ passed, r.Passes passed t ∧ Written p (passed.filter (·.isSignificant))

theorem Reaches.passesText {r t : Reader} {p : List Sign} (h : r.Reaches t)
    (hw : WrittenUpTo p r.pending t.pending) : r.PassesText p t := by
  obtain ⟨passed, hpassed, hpending⟩ := h.passes
  obtain ⟨v, hv, hp⟩ := hw
  rw [hpending] at hp
  obtain rfl := List.append_cancel_right hp
  exact ⟨passed, hpassed, hv⟩

theorem Reaches.eq_of_pending {r t : Reader} (h : r.Reaches t) (hp : t.pending = r.pending) :
    t = r := by
  cases h with
  | refl => rfl
  | read hr ht =>
    have hle := ht.left_le
    have hlt := left_rest_lt hr
    unfold left at hle hlt
    rw [hp] at hle
    omega

theorem Reaches.eq_of_pending_eq {r t u : Reader} (ht : r.Reaches t) (hu : r.Reaches u)
    (h : t.pending = u.pending) : t = u := by
  induction ht with
  | refl r => exact (hu.eq_of_pending h.symm).symm
  | @read r t hr ht ih =>
    cases hu with
    | refl => exact (Reaches.read hr ht).eq_of_pending h
    | read _ hu => exact ih hu h

end Reader

end MiniC
