import MiniC.Token.Basic

namespace MiniC

/-- A place in a list of tokens and the line of the token read last. -/
structure Cursor where
  index : Nat
  line : Nat
  deriving DecidableEq

/-- Lines are counted from 1. -/
def Cursor.start : Cursor := ⟨0, 1⟩

structure Reader where
  ahead : List Token
  cursor : Cursor

namespace Reader

/-- The reader of `tokens` at a cursor, which may lie beyond their end. -/
def ofTokens (tokens : List Token) (cursor : Cursor) : Reader := ⟨tokens.drop cursor.index, cursor⟩

/-- The significant token after `n` others. -/
def peekIn : List Token → Nat → Token
  | [], _ => .eof
  | t :: ts, n =>
    if t.isSignificant then
      match n with
      | 0 => t
      | n + 1 => peekIn ts n
    else
      peekIn ts n

def peek (r : Reader) (n : Nat) : Token := peekIn r.ahead n

def next (r : Reader) : Token := r.peek 0

def consumeIn : List Token → Cursor → Token × Reader
  | [], c => (.eof, ⟨[], c⟩)
  | t :: ts, c =>
    if t.isSignificant then
      (t, ⟨ts, ⟨c.index + 1, c.line⟩⟩)
    else
      consumeIn ts ⟨c.index + 1, c.line + 1⟩

def consume (r : Reader) : Token × Reader := consumeIn r.ahead r.cursor

def rest (r : Reader) : Reader := r.consume.2

/-- The line of the token read last. -/
def line (r : Reader) : Nat := r.cursor.line

def nextLine (r : Reader) : Nat :=
  r.cursor.line + (r.ahead.takeWhile (!·.isSignificant)).length

def atEnd (r : Reader) : Bool := r.next.kind == .eof

/-- The significant tokens before the first of kind `eof`. -/
def pending (r : Reader) : List Token :=
  (r.ahead.filter (·.isSignificant)).takeWhile (·.kind != .eof)

/-- How many tokens a parser can still read. -/
def left (r : Reader) : Nat := r.pending.length

theorem peekIn_eq (ts : List Token) (n : Nat) :
    peekIn ts n = (ts.filter (·.isSignificant))[n]?.getD .eof := by
  induction ts generalizing n with
  | nil => simp [peekIn]
  | cons t ts ih => by_cases h : t.isSignificant <;> cases n <;> simp [peekIn, h, ih]

theorem peek_eq (r : Reader) (n : Nat) :
    r.peek n = (r.ahead.filter (·.isSignificant))[n]?.getD .eof := peekIn_eq _ _

theorem next_eq (r : Reader) : r.next = (r.ahead.filter (·.isSignificant)).head?.getD .eof := by
  simp [next, peek_eq, List.head?_eq_getElem?]

theorem consumeIn_fst (ts : List Token) (c : Cursor) : (consumeIn ts c).1 = peekIn ts 0 := by
  induction ts generalizing c with
  | nil => rfl
  | cons t ts ih => by_cases h : t.isSignificant <;> simp [consumeIn, peekIn, h, ih]

@[simp] theorem consume_fst (r : Reader) : r.consume.1 = r.next := consumeIn_fst _ _

theorem filter_ahead_consumeIn (ts : List Token) (c : Cursor) :
    (consumeIn ts c).2.ahead.filter (·.isSignificant) = (ts.filter (·.isSignificant)).tail := by
  induction ts generalizing c with
  | nil => rfl
  | cons t ts ih => by_cases h : t.isSignificant <;> simp [consumeIn, h, ih]

theorem filter_ahead_rest (r : Reader) :
    r.rest.ahead.filter (·.isSignificant) = (r.ahead.filter (·.isSignificant)).tail :=
  filter_ahead_consumeIn _ _

/-- Reading takes the first pending token, if there is one. -/
theorem pending_eq_cons {r : Reader} (h : r.next.kind ≠ .eof) :
    r.pending = r.next :: r.rest.pending := by
  rw [next_eq] at h ⊢
  unfold pending
  rw [filter_ahead_rest]
  cases hs : r.ahead.filter (·.isSignificant) with
  | nil => simp [hs, Token.eof, Token.plain] at h
  | cons t ts => simp_all

theorem pending_eq_nil_iff (r : Reader) : r.pending = [] ↔ r.next.kind = .eof := by
  constructor
  · intro h
    by_cases hk : r.next.kind = .eof
    · exact hk
    · simp [pending_eq_cons hk] at h
  · intro h
    rw [next_eq] at h
    unfold pending
    cases hs : r.ahead.filter (·.isSignificant) with
    | nil => rfl
    | cons t ts => simp_all

theorem left_rest_lt {r : Reader} (h : r.next.kind ≠ .eof) : r.rest.left < r.left := by
  simp [left, pending_eq_cons h]

end Reader

end MiniC
