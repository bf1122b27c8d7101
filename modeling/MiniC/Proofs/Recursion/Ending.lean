import MiniC.Proofs.Recursion.Descent

namespace MiniC

open Scheme MiniC.Parser

def Call.Makes (limit : Option Nat) (a b : Call) : Prop := b ∈ (a.task.plan limit a.state).calls limit

/-- The result of a task, if no more than so many calls are in progress at once. -/
def Task.runWithin (limit : Option Nat) : Nat → (c : Task) → State → Option (Result c.Value)
  | 0, _, _ => none
  | most + 1, c, s => (c.plan limit s).runWith (Task.runWithin limit most)

namespace Call

variable {limit : Option Nat} {a b : Call}

theorem Makes.ne_read (h : a.Makes limit b) : a.task ≠ .read := by
  intro hread
  obtain ⟨c, s⟩ := a
  obtain rfl : c = .read := hread
  simp [Makes, Task.plan, Scheme.of, Plan.calls] at h

theorem Makes.below (h : a.Makes limit b) : b.Below a.state.left a.task.rank :=
  (Task.descends_plan h.ne_read).below b h

theorem Makes.reaches (h : a.Makes limit b) : a.state.reader.Reaches b.state.reader :=
  (Task.descends_plan h.ne_read).between b h

theorem wellFounded_makes (limit : Option Nat) :
    WellFounded fun b a : Call => a.Makes limit b :=
  Subrelation.wf (fun h => h.below.lex)
    (InvImage.wf (fun a : Call => (a.state.left, a.task.rank))
      (Prod.lex ⟨_, Nat.lt_wfRel.wf⟩ ⟨_, Nat.lt_wfRel.wf⟩).wf)

/-- A bound on the calls that are in progress at once when this one has been made. -/
def height (a : Call) : Nat := 12 * a.state.left + a.task.rank

theorem Makes.height_lt (h : a.Makes limit b) : b.height < a.height := by
  have hrank := b.task.rank_le
  unfold height
  rcases Prod.lex_def.mp h.below.lex with hleft | ⟨heq, hlt⟩
  · simp only at hleft
    omega
  · simp only at heq hlt
    omega

end Call

/-- With room for so many calls every one of them is answered. -/
theorem Task.runWithin_eq_some {limit : Option Nat} {c : Task} {s : State} {most : Nat}
    (h : Call.height ⟨c, s⟩ < most) : c.runWithin limit most s = some (c.parser limit s) := by
  induction most generalizing c s with
  | zero => exact absurd h (Nat.not_lt_zero _)
  | succ most ih =>
    rw [runWithin, Plan.runWith_eq_some fun a ha => ?_]
    · exact congrArg some (congrFun (c.parser_plan limit) s)
    · have hmade : Call.Makes limit ⟨c, s⟩ a := ha
      exact ih (Nat.lt_of_lt_of_le hmade.height_lt (Nat.le_of_lt_succ h))

/-- A turn that makes its loop start again, and a match of a consuming production, go on by a
significant token; nothing goes over one of kind `eof`; and calls go down, so every task ends. -/
theorem Task.advances_and_ends (limit : Option Nat) :
    (∀ (l : Loop) (d : Draft), (l.turn d >>= l.follow).parser limit = l.parser limit d) ∧
    (∀ (l : Loop) (d d' : Draft) (s t : State),
      (l.turn d).parser limit s = ⟨.matched (.again d'), t⟩ → s.reader.Advances t.reader) ∧
    (∀ p ∈ Production.consuming, ∀ (n : Node) (s t : State),
      p.parser limit s = ⟨.matched n, t⟩ → s.reader.Advances t.reader) ∧
    (∀ c : Task, (c.plan limit).parser limit = c.parser limit) ∧
    (∀ (c : Task) (s : State), c ≠ .read → s.reader.Follows (c.parser limit s).final.reader) ∧
    (∀ a b : Call, a.Makes limit b →
      a.state.reader.Follows b.state.reader ∧ (b.task = .read → b.state.nextKind ≠ .eof) ∧
        Prod.Lex (· < ·) (· < ·) (b.state.left, b.task.rank) (a.state.left, a.task.rank)) ∧
    (WellFounded fun b a : Call => a.Makes limit b) ∧
    ∀ (c : Task) (s : State) (most : Nat), 12 * s.left + c.rank < most →
      c.runWithin limit most s = some (c.parser limit s) := by
  refine ⟨fun l d => l.parser_plan d, fun l d d' s t h => ?_, fun p hp n s t h => ?_,
    Task.parser_plan limit, fun c s hc => ?_, fun a b h => ?_, Call.wellFounded_makes limit,
    fun c s most h => Task.runWithin_eq_some h⟩
  · exact Loop.advances_of_again h
  · exact Production.advances_of_matched hp h
  · exact (Task.keeps_task limit hc s).reaches.follows
  · exact ⟨h.reaches.follows, h.below.inside, h.below.lex⟩

/-- A list of parameters that breaks off behind a comma, at a token of kind `eof`. -/
theorem Task.advances_and_ends_truncated :
    let s : State := .start (Reader.ofTokens
      [.newline, .plain .kwInt, .ident "x", .plain .comma, .eof, .plain .kwInt] .start)
      (.ofCapacity .packed 4096)
    let list := Draft.empty .paramList 2 4
    let a : Call := ⟨.production .identifier, (typeName none s).final⟩
    (∃ list' t, (Loop.parameters.turn list).parser none s = ⟨.matched (.again list'), t⟩ ∧
      s.reader.Advances t.reader) ∧
    (.ofRule .type ∈ Production.consuming ∧
      ∃ n t, typeName none s = ⟨.matched n, t⟩ ∧ s.reader.Advances t.reader) ∧
    (Task.unit ≠ .read ∧ s.reader.Follows (Task.unit.parser none s).final.reader) ∧
    (a.Makes none ⟨.read, a.state⟩ ∧ a.state.nextKind ≠ .eof) ∧
    12 * s.left + Task.unit.rank < 48 ∧
      Task.unit.runWithin none 48 s = some (Task.unit.parser none s) := by
  intro s list a
  obtain ⟨-, hturn, hmatch, -, hfinal, hcalls, -, hends⟩ := Task.advances_and_ends none
  obtain ⟨list', t, ht⟩ : ∃ list' t,
      (Loop.parameters.turn list).parser none s = ⟨.matched (.again list'), t⟩ := ⟨_, _, rfl⟩
  obtain ⟨n, u, hu⟩ : ∃ n u, typeName none s = ⟨.matched n, u⟩ := ⟨_, _, rfl⟩
  have htype : .ofRule .type ∈ Production.consuming := .head _
  have hunit : Task.unit ≠ .read := by simp
  have hread : a.Makes none ⟨.read, a.state⟩ := .head _
  have hroom : 12 * s.left + Task.unit.rank < 48 := by decide
  exact ⟨⟨list', t, ht, hturn _ _ _ _ _ ht⟩, ⟨htype, n, u, hu, hmatch _ htype n s u hu⟩,
    ⟨hunit, hfinal _ s hunit⟩, ⟨hread, (hcalls _ _ hread).2.1 rfl⟩, hroom, hends _ _ _ hroom⟩

end MiniC
