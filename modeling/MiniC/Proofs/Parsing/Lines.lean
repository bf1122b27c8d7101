import MiniC.Proofs.Parsing.Steps
import MiniC.Proofs.Syntax.Firsts

namespace MiniC

open Syntax

/-- How many newlines come before the significant token number `k`, or in all if there is no such
token. -/
def newlinesBefore : List Token → Nat → Nat
  | [], _ => 0
  | t :: ts, k =>
    if t.isSignificant then
      match k with
      | 0 => 0
      | k + 1 => newlinesBefore ts k
    else
      newlinesBefore ts k + 1

theorem newlinesBefore_mono (ts : List Token) {i j : Nat} (h : i ≤ j) :
    newlinesBefore ts i ≤ newlinesBefore ts j := by
  induction ts generalizing i j with
  | nil => exact Nat.le_refl _
  | cons t ts ih =>
    by_cases ht : t.isSignificant
    · cases i with
      | zero => simp [newlinesBefore, ht]
      | succ i =>
        cases j with
        | zero => omega
        | succ j =>
          have hij : i ≤ j := by omega
          simpa [newlinesBefore, ht] using ih hij
    · simpa [newlinesBefore, ht] using ih h

theorem newlinesBefore_zero (ts : List Token) :
    newlinesBefore ts 0 = (ts.takeWhile (!·.isSignificant)).length := by
  induction ts with
  | nil => rfl
  | cons t ts ih => by_cases ht : t.isSignificant <;> simp [newlinesBefore, ht, ih]

theorem newlinesBefore_append_left {ts : List Token} (us : List Token) {k : Nat}
    (h : k < ts.countP (·.isSignificant)) :
    newlinesBefore (ts ++ us) k = newlinesBefore ts k := by
  induction ts generalizing k with
  | nil => simp at h
  | cons t ts ih =>
    by_cases ht : t.isSignificant
    · cases k with
      | zero => simp [newlinesBefore, ht]
      | succ k =>
        have hk : k < ts.countP (·.isSignificant) := by simpa [ht] using h
        simpa [newlinesBefore, ht] using ih hk
    · have hk : k < ts.countP (·.isSignificant) := by simpa [ht] using h
      simpa [newlinesBefore, ht] using ih hk

theorem newlinesBefore_append_right (ts us : List Token) (k : Nat) :
    newlinesBefore (ts ++ us) (ts.countP (·.isSignificant) + k) =
      ts.countP (!·.isSignificant) + newlinesBefore us k := by
  induction ts with
  | nil => simp
  | cons t ts ih =>
    by_cases ht : t.isSignificant
    · have hk : ts.countP (·.isSignificant) + 1 + k = ts.countP (·.isSignificant) + k + 1 := by
        omega
      simpa [newlinesBefore, ht, hk] using ih
    · have hcount : (t :: ts).countP (!·.isSignificant) = ts.countP (!·.isSignificant) + 1 :=
        List.countP_cons_of_pos (by simp [ht])
      rw [List.countP_cons_of_neg ht, hcount]
      simp only [List.cons_append, newlinesBefore, ht, Bool.false_eq_true, if_false, ih]
      omega

theorem newlinesBefore_significant (before after : List Token) {t : Token} (ht : t.isSignificant) :
    newlinesBefore (before ++ t :: after) (before.countP (·.isSignificant)) =
      before.countP (!·.isSignificant) := by
  have hfirst : newlinesBefore (t :: after) 0 = 0 := by simp [newlinesBefore, ht]
  have happend := newlinesBefore_append_right before (t :: after) 0
  rwa [hfirst] at happend

theorem newlinesBefore_all {ts : List Token} {k : Nat} (h : ts.countP (·.isSignificant) ≤ k) :
    newlinesBefore ts k = ts.countP (!·.isSignificant) := by
  induction ts generalizing k with
  | nil => rfl
  | cons t ts ih =>
    by_cases ht : t.isSignificant
    · cases k with
      | zero => simp [ht] at h
      | succ k =>
        have hk : ts.countP (·.isSignificant) ≤ k := by simpa [ht] using h
        simpa [newlinesBefore, ht] using ih hk
    · have hk : ts.countP (·.isSignificant) ≤ k := by simpa [ht] using h
      simpa [newlinesBefore, ht] using ih hk

namespace Reader

/-- The line of the significant token number `k` ahead. Behind the last one all newlines count. -/
def lineOf (r : Reader) (k : Nat) : Nat := r.line + newlinesBefore r.ahead k

theorem lineOf_mono (r : Reader) {i j : Nat} (h : i ≤ j) : r.lineOf i ≤ r.lineOf j :=
  Nat.add_le_add_left (newlinesBefore_mono r.ahead h) _

theorem lineOf_zero (r : Reader) : r.lineOf 0 = r.nextLine := by
  rw [lineOf, newlinesBefore_zero]
  rfl

theorem lineOf_consumeIn (ts : List Token) (c : Cursor) (k : Nat) :
    (consumeIn ts c).2.lineOf k = c.line + newlinesBefore ts (k + 1) := by
  induction ts generalizing c with
  | nil => rfl
  | cons t ts ih =>
    by_cases ht : t.isSignificant
    · simp [consumeIn, newlinesBefore, ht, lineOf, line]
    · simp only [consumeIn, newlinesBefore, ht, Bool.false_eq_true, if_false]
      rw [ih ⟨c.index + 1, c.line + 1⟩]
      simp only
      omega

theorem lineOf_rest (r : Reader) (k : Nat) : r.rest.lineOf k = r.lineOf (k + 1) :=
  lineOf_consumeIn r.ahead r.cursor k

theorem line_consumeIn (ts : List Token) (c : Cursor) :
    (consumeIn ts c).2.line = c.line + newlinesBefore ts 0 := by
  induction ts generalizing c with
  | nil => rfl
  | cons t ts ih =>
    by_cases ht : t.isSignificant
    · simp [consumeIn, newlinesBefore, ht, line]
    · simp only [consumeIn, newlinesBefore, ht, Bool.false_eq_true, if_false]
      rw [ih ⟨c.index + 1, c.line + 1⟩]
      simp only
      omega

theorem line_rest (r : Reader) : r.rest.line = r.lineOf 0 := line_consumeIn r.ahead r.cursor

theorem Reaches.lineOf {r t : Reader} (h : r.Reaches t) (k : Nat) :
    t.lineOf k = r.lineOf (r.left - t.left + k) := by
  induction h with
  | refl r => rw [Nat.sub_self, Nat.zero_add]
  | @read r t hr ht ih =>
    have hle := ht.left_le
    have hlt : r.left = r.rest.left + 1 := by rw [left, pending_eq_cons hr]; rfl
    rw [ih, lineOf_rest]
    congr 1
    omega

end Reader

namespace State

variable {s t : State}

def lineOf (s : State) (k : Nat) : Nat := s.reader.lineOf k

theorem lineOf_zero (s : State) : s.lineOf 0 = s.nextLine := s.reader.lineOf_zero

theorem lineOf_skip (s : State) (k : Nat) : s.skip.lineOf k = s.lineOf (k + 1) :=
  s.reader.lineOf_rest k

theorem lineOf_addLeaf (s : State) (d : Draft) (k : Nat) :
    (s.addLeaf d).2.lineOf k = s.lineOf (k + 1) := by
  rw [lineOf, reader_addLeaf]
  exact s.reader.lineOf_rest k

theorem Kept.lineOf {p : List Sign} (hk : s.Kept t) (h : WrittenUpTo p s.pending t.pending)
    (k : Nat) : t.lineOf k = s.lineOf (p.length + k) := by
  have hlen : s.left = p.length + t.left := by
    have := congrArg List.length h.kinds
    simpa [State.left, Reader.left, State.pending] using this
  have hr := hk.reaches.lineOf k
  have hsub : s.reader.left - t.reader.left = p.length := by
    unfold State.left at hlen
    omega
  rwa [hsub] at hr

theorem Kept.map_lineOf {p : List Sign} (hk : s.Kept t) (h : WrittenUpTo p s.pending t.pending)
    (firsts : List Nat) : firsts.map t.lineOf = (behind p.length firsts).map s.lineOf := by
  rw [behind, List.map_map]
  exact List.map_congr_left fun i _ => hk.lineOf h i

theorem Kept.lineOf_eq (hk : s.Kept t) (h : t.pending = s.pending) : t.lineOf = s.lineOf := by
  funext k
  have hnil : WrittenUpTo [] s.pending t.pending := h ▸ .nil _
  rw [hk.lineOf hnil, List.length_nil, Nat.zero_add]

theorem map_lineOf_skip (s : State) (firsts : List Nat) :
    firsts.map s.skip.lineOf = (behind 1 firsts).map s.lineOf := by
  rw [behind, List.map_map]
  exact List.map_congr_left fun i _ => by rw [lineOf_skip, Nat.add_comm]; rfl

theorem map_lineOf_addLeaf (s : State) (d : Draft) (firsts : List Nat) :
    firsts.map (s.addLeaf d).2.lineOf = (behind 1 firsts).map s.lineOf := by
  rw [behind, List.map_map]
  exact List.map_congr_left fun i _ => by rw [lineOf_addLeaf, Nat.add_comm]; rfl

theorem lines_takeLeaf (s : State) : s.takeLeaf.1.lines = [s.lineOf 0] := by
  rw [Node.lines_eq, lineOf, ← s.reader.line_rest]
  simp [takeLeaf, Draft.close, Draft.leaf]

end State

namespace Draft

/-- The node stays where it is and got children on these lines behind those that it had. -/
structure Gains (d : Draft) (lines : List Nat) (d' : Draft) : Prop where
  line : d'.line = d.line
  lines : d'.children.toList.flatMap Node.lines = d.children.toList.flatMap Node.lines ++ lines

namespace Gains

variable {d d' d'' : Draft} {ls ms : List Nat}

theorem refl (d : Draft) : d.Gains [] d := ⟨rfl, by simp⟩

theorem trans (h : d.Gains ls d') (k : d'.Gains ms d'') : d.Gains (ls ++ ms) d'' :=
  ⟨k.line.trans h.line, by rw [k.lines, h.lines, List.append_assoc]⟩

theorem push (d : Draft) (n : Node) : d.Gains n.lines (d.push n) := ⟨rfl, by simp⟩

theorem lines_close {kind : NodeKind} {line wanted : Nat}
    (h : (Draft.empty kind line wanted).Gains ls d) : d.close.lines = line :: ls := by
  rw [Node.lines_eq]
  simp [close, h.line, h.lines, empty]

end Gains

end Draft

theorem State.gains_addLeaf (s : State) (d : Draft) : d.Gains [s.lineOf 0] (s.addLeaf d).1 := by
  rw [← s.lines_takeLeaf]
  exact .push d _

end MiniC
