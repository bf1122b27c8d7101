import MiniC.Proofs.Parsing.Limit

namespace MiniC

namespace Reader

theorem index_le_consumeIn (ts : List Token) (c : Cursor) :
    c.index ≤ (consumeIn ts c).2.cursor.index := by
  induction ts generalizing c with
  | nil => exact Nat.le_refl _
  | cons t ts ih =>
    unfold consumeIn
    split
    · exact Nat.le_succ _
    · exact Nat.le_trans (Nat.le_succ _) (ih ⟨c.index + 1, c.line + 1⟩)

theorem Reaches.index_le {r t : Reader} (h : r.Reaches t) : r.cursor.index ≤ t.cursor.index := by
  induction h with
  | refl => exact Nat.le_refl _
  | @read r _ _ _ ih =>
    have hrest : r.cursor.index ≤ r.rest.cursor.index := index_le_consumeIn r.ahead r.cursor
    exact Nat.le_trans hrest ih

end Reader

namespace Event

/-- How many rules are in progress when a rule has been started. -/
def depthAfter : Event → Nat
  | .entered _ depth _ => depth + 1
  | _ => 0

/-- The largest number of rules in progress at any time, from `depth` of them on. -/
def peak (depth : Nat) (events : List Event) : Nat :=
  events.foldr (fun e most => max e.depthAfter most) depth

theorem Below.depthAfter_le {limit : Nat} {e : Event} (h : e.Below limit) :
    e.depthAfter ≤ limit := by
  cases e with
  | entered rule depth line => exact h
  | _ => exact Nat.zero_le _

theorem peak_le {limit depth : Nat} {events : List Event} (hd : depth ≤ limit)
    (h : ∀ e ∈ events, e.Below limit) : peak depth events ≤ limit := by
  induction events with
  | nil => exact hd
  | cons e events ih =>
    have he := (h e List.mem_cons_self).depthAfter_le
    have htail := ih fun e' he' => h e' (List.mem_cons_of_mem _ he')
    exact Nat.max_le.mpr ⟨he, htail⟩

end Event

/-- What can be looked for: a rule, an identifier, or a declaration that is refused. The last two
are not counted among the rules in progress. -/
inductive Production where
  | ofRule (rule : Rule)
  | identifier
  | refusedDeclaration

namespace Production

open MiniC.Parser

def parser (limit : Option Nat) : Production → Parser Node
  | ofRule .type => typeName limit
  | ofRule .variableDeclaration => variableDeclaration limit
  | ofRule .variableDefinition => variableDefinition limit
  | ofRule .parameterList => parameterList limit
  | ofRule .functionDeclaration => functionDeclaration limit
  | ofRule .functionDefinition => functionDefinition limit
  | ofRule .functionBody => functionBody limit
  | ofRule .statement => statement limit
  | ofRule .expression => expression limit
  | ofRule .cast => cast limit
  | identifier => Parser.identifier
  | refusedDeclaration => Parser.refusedDeclaration

theorem keeps_production (limit : Option Nat) (p : Production) : Keeps (p.parser limit) := by
  cases p with
  | ofRule rule =>
    cases rule with
    | type => exact keeps_typeName limit
    | variableDeclaration => exact keeps_variableDeclaration limit
    | variableDefinition => exact keeps_variableDefinition limit
    | parameterList => exact keeps_parameterList limit
    | functionDeclaration => exact keeps_functionDeclaration limit
    | functionDefinition => exact keeps_functionDefinition limit
    | functionBody => exact keeps_functionBody limit
    | statement => exact keeps_statement limit
    | expression => exact keeps_expression limit
    | cast => exact keeps_cast limit
  | identifier => exact keeps_identifier
  | refusedDeclaration => exact keeps_refusedDeclaration

theorem couple_production (C : Coupling) (p : Production) :
    Couple C (Nodes C) (p.parser C.limit) (p.parser C.limit') := by
  cases p with
  | ofRule rule =>
    cases rule with
    | type => exact couple_typeName C
    | variableDeclaration => exact couple_variableDeclaration C
    | variableDefinition => exact couple_variableDefinition C
    | parameterList => exact couple_parameterList C
    | functionDeclaration => exact couple_functionDeclaration C
    | functionDefinition => exact couple_functionDefinition C
    | functionBody => exact couple_functionBody C
    | statement => exact couple_statement C
    | expression => exact couple_expression C
    | cast => exact couple_cast C
  | identifier => exact couple_identifier C
  | refusedDeclaration => exact couple_refusedDeclaration C

theorem exists_tryRule (limit : Option Nat) (rule : Rule) :
    ∃ q, (ofRule rule).parser limit = tryRule limit rule q := by
  cases rule with
  | statement => exact ⟨_, statement_eq limit⟩
  | expression => exact ⟨_, expression_eq limit⟩
  | _ => exact ⟨_, rfl⟩

theorem reader_of_mismatch {limit : Option Nat} {p : Production} {s : State}
    (h : (p.parser limit s).outcome = .mismatch) : (p.parser limit s).final.reader = s.reader := by
  cases p with
  | ofRule rule =>
    obtain ⟨q, hq⟩ := exists_tryRule limit rule
    rw [hq] at h ⊢
    unfold tryRule at h ⊢
    split at h
    · simp [State.refuse] at h
    · rcases hr : q (s.enter rule) with ⟨n | _ | e, t⟩
      · simp [hr, State.leave] at h
      · next hfull => simp [hfull, State.leave]
      · simp [hr, State.leave] at h
  | identifier =>
    simp only [parser, Parser.identifier] at h ⊢
    split at h
    · simp [step] at h
    · next hk => rw [if_neg hk]
  | refusedDeclaration =>
    simp only [parser, Parser.refusedDeclaration] at h ⊢
    split at h
    · simp [refuseConstruct] at h
    · rfl

/-- Every production leaves the parser as it was, up to what was read, made and noted down. -/
theorem run_restores (p : Production) (tokens : List Token) (cursor : Cursor) (depth : Nat)
    (arena : Arena) (interner : Interner) (log : List Event) (hd : depth ≤ nestingLimit) :
    let r := p.parser (some nestingLimit)
      ⟨Reader.ofTokens tokens cursor, depth, arena, interner, log⟩
    (r.outcome = .mismatch → r.final.reader = Reader.ofTokens tokens cursor) ∧
      r.final.depth = depth ∧ cursor.index ≤ r.final.reader.cursor.index ∧
      ∃ events, r.final.log = events ++ log ∧ Event.peak depth events ≤ nestingLimit := by
  let s : State := ⟨Reader.ofTokens tokens cursor, depth, arena, interner, log⟩
  have hkept := p.keeps_production (some nestingLimit) s
  have hcouple := p.couple_production (limitCoupling nestingLimit log)
  have hlimited := limited_of_couple (s := s) hd hcouple
  obtain ⟨events, hevents, hbelow⟩ := hlimited.log
  exact ⟨reader_of_mismatch, hkept.depth, hkept.reaches.index_le, events, hevents,
    Event.peak_le hd hbelow⟩

/-- A type that no identifier follows, tried as the last rule that there is room for. -/
theorem run_restores_type :
    let tokens := [Token.plain .kwInt, .newline, .plain .semicolon]
    let s : State :=
      ⟨Reader.ofTokens tokens .start, 254, .ofCapacity .packed 4096, .empty, []⟩
    let r := (ofRule .variableDefinition).parser (some nestingLimit) s
    r.outcome = .mismatch ∧ r.final.reader = Reader.ofTokens tokens .start ∧
      r.final.depth = 254 ∧ 0 ≤ r.final.reader.cursor.index ∧
      ∃ events, r.final.log = events ++ [] ∧ Event.peak 254 events ≤ nestingLimit := by
  intro tokens s r
  have hmismatch : r.outcome = .mismatch := rfl
  obtain ⟨hback, hrest⟩ := run_restores (ofRule .variableDefinition) tokens .start 254
    (.ofCapacity .packed 4096) .empty [] (by decide)
  exact ⟨hmismatch, hback hmismatch, hrest⟩

end Production

end MiniC
