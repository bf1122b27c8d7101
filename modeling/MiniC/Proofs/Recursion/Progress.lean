import MiniC.Proofs.Parsing.Position
import MiniC.Proofs.Recursion.Grammar

namespace MiniC

namespace Reader

/-- The second reader is where the first one comes to over some tokens, none of which is of kind
`eof`. -/
def Follows (r t : Reader) : Prop :=
  ∃ passed, r.Passes passed t ∧ ∀ x ∈ passed, x.kind ≠ .eof

/-- In addition, one of these tokens is significant. -/
def Advances (r t : Reader) : Prop :=
  ∃ passed, r.Passes passed t ∧ (∀ x ∈ passed, x.kind ≠ .eof) ∧ ∃ x ∈ passed, x.isSignificant

theorem kind_ne_eof_of_mem_pending {r : Reader} {x : Token} (h : x ∈ r.pending) : x.kind ≠ .eof := by
  simpa using List.mem_takeWhile_imp h

theorem Reaches.exists_passed {r t : Reader} (h : r.Reaches t) :
    ∃ passed, r.Passes passed t ∧ (∀ x ∈ passed, x.kind ≠ .eof) ∧
      r.left = (passed.filter (·.isSignificant)).length + t.left := by
  obtain ⟨passed, hpassed, hpending⟩ := h.passes
  refine ⟨passed, hpassed, fun x hx heof => ?_, by rw [left, hpending, List.length_append, left]⟩
  have hs : x.isSignificant := by simp [Token.isSignificant, TokenKind.isSignificant, heof]
  have hmem : x ∈ r.pending := by
    rw [hpending]
    exact List.mem_append_left _ (List.mem_filter.mpr ⟨hx, hs⟩)
  exact kind_ne_eof_of_mem_pending hmem heof

theorem Reaches.follows {r t : Reader} (h : r.Reaches t) : r.Follows t := by
  obtain ⟨passed, hpassed, heof, -⟩ := h.exists_passed
  exact ⟨passed, hpassed, heof⟩

theorem Reaches.advances {r t : Reader} (h : r.Reaches t) (hlt : t.left < r.left) : r.Advances t := by
  obtain ⟨passed, hpassed, heof, hleft⟩ := h.exists_passed
  obtain ⟨x, hx⟩ := List.exists_mem_of_length_pos
    (show 0 < (passed.filter (·.isSignificant)).length by omega)
  obtain ⟨hmem, hs⟩ := List.mem_filter.mp hx
  exact ⟨passed, hpassed, heof, x, hmem, hs⟩

end Reader

/-- The productions that match no empty text. -/
def Production.consuming : List Production :=
  [ofRule .type, identifier, ofRule .variableDeclaration, ofRule .variableDefinition,
    ofRule .functionDeclaration, ofRule .functionDefinition, ofRule .statement, ofRule .cast]

open Scheme MiniC.Parser

theorem Production.consumes_of_mem {p : Production} (limit : Option Nat)
    (h : p ∈ Production.consuming) : Consumes (p.parser limit) := by
  simp only [consuming, List.mem_cons, List.not_mem_nil, or_false] at h
  rcases h with rfl | rfl | rfl | rfl | rfl | rfl | rfl | rfl
  · exact consumes_typeName limit
  · exact consumes_identifier
  · exact consumes_variableDeclaration limit
  · exact consumes_variableDefinition limit
  · exact consumes_functionDeclaration limit
  · exact consumes_functionDefinition limit
  · exact consumes_statement limit
  · exact consumes_cast limit

theorem Production.advances_of_matched {p : Production} {limit : Option Nat} {s t : State} {n : Node}
    (h : p ∈ Production.consuming) (hp : p.parser limit s = ⟨.matched n, t⟩) :
    s.reader.Advances t.reader :=
  ((p.keeps_production limit).of_eq hp).reaches.advances ((p.consumes_of_mem limit h).lt hp)

section Again

variable {limit : Option Nat} {d d' : Draft} {s t u : State}

theorem Turn.finished_ne_again :
    (⟨.matched (.finished d), u⟩ : Result Turn) ≠ ⟨.matched (.again d'), t⟩ := by simp

theorem Turn.left_lt_of_addLeaf (hs : s.nextKind ≠ .eof)
    (h : (addLeaf d >>= fun d => pure (.again d) : Scheme Turn).parser limit s =
      ⟨.matched (.again d'), t⟩) : t.left < s.left := by
  obtain rfl : (s.addLeaf d).2 = t := (Result.mk.inj h).2
  exact State.left_addLeaf_lt d hs

theorem Turn.reads_startAgain (d : Draft) (child : Node) :
    Reads ((startAgain d child).parser limit) :=
  (reads_append d child).andThen fun _ => reads_pure _

theorem Turn.left_lt_of_startAgain {p : Scheme Node} (hp : Consumes (p.parser limit))
    (h : (p >>= startAgain d).parser limit s = ⟨.matched (.again d'), t⟩) : t.left < s.left := by
  rw [parser_bind] at h
  exact (hp.andThen (reads_startAgain d)).lt h

/-- A loop starts again only where something was read. -/
theorem Loop.left_lt_of_again {l : Loop}
    (h : (l.turn d).parser limit s = ⟨.matched (.again d'), t⟩) : t.left < s.left := by
  -- each loop reads before it goes round
  cases l with
  | unitItems =>
    rw [turn, parser_look] at h
    split at h
    · exact absurd h Turn.finished_ne_again
    · refine Turn.left_lt_of_startAgain ?_ h
      rw [parser_orElse, parser_topLevel]
      exact (consumes_topLevel limit).orElse consumes_rejectUnit
  | bodyItems =>
    rw [turn, parser_look] at h
    split at h
    · exact absurd h Turn.finished_ne_again
    · refine Turn.left_lt_of_startAgain ?_ h
      rw [parser_bodyItem]
      exact consumes_bodyItem limit
  | compound =>
    rw [turn, parser_look] at h
    split at h
    · exact absurd h Turn.finished_ne_again
    · exact Turn.left_lt_of_startAgain (p := Scheme.production (.ofRule .statement))
        (consumes_statement limit) h
  | parameters =>
    rw [turn, parser_bind, parser_parameter] at h
    obtain ⟨list, u, hu, h⟩ := bind_eq_matched h
    have hlt : u.left < s.left := (consumes_parameter limit d).lt hu
    rw [parser_look] at h
    split at h
    · exact absurd h Turn.finished_ne_again
    · split at h
      · next hcomma =>
        obtain rfl : u.skip = t := (Result.mk.inj h).2
        exact Nat.lt_trans (State.left_skip_lt (by simp [hcomma])) hlt
      · exact absurd (Result.mk.inj h).1 (by simp)
  | stars =>
    rw [turn, parser_look] at h
    split at h
    · next hstar => exact Turn.left_lt_of_addLeaf (by simp [hstar]) h
    · exact absurd h Turn.finished_ne_again
  | operands =>
    rw [turn, parser_look] at h
    cases hk : s.nextKind.expressionPart with
    | close =>
      rw [hk] at h
      exact absurd h Turn.finished_ne_again
    | stray =>
      rw [hk] at h
      exact absurd (Result.mk.inj h).1 (by simp)
    | operand =>
      rw [hk] at h
      exact Turn.left_lt_of_addLeaf (TokenKind.ne_eof_of_operand hk) h
    | group =>
      rw [hk, parser_bind, parser_read] at h
      obtain ⟨_, u, hu, h⟩ := bind_eq_matched h
      obtain rfl : s.skip = u := (Result.mk.inj hu).2
      -- what is between the parentheses may be empty, but the first of them is read
      have hskip : s.skip.left < s.left := State.left_skip_lt (TokenKind.ne_eof_of_group hk)
      have hinner : Reads (((Scheme.production (.ofRule .cast)).orElse group).parser limit) := by
        rw [parser_orElse, parser_group]
        exact (consumes_cast limit).reads.orElse fun u => (keeps_group limit u).left_le
      rw [parser_bind] at h
      exact Nat.lt_of_le_of_lt ((hinner.andThen (Turn.reads_startAgain d)).le h) hskip

end Again

end MiniC
