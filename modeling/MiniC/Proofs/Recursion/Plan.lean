import MiniC.Proofs.Parsing.Production
import MiniC.Proofs.Parsing.Unit

namespace MiniC

/-- The loops of the grammar. -/
inductive Loop where
  | unitItems | bodyItems | compound | parameters | stars | operands

/-- What can be called for; a `loop` goes on from the node it is given. -/
inductive Task where
  | unit
  | production (p : Production)
  | loop (l : Loop) (d : Draft)
  | read

namespace Loop

open MiniC.Parser

def parser (limit : Option Nat) : Loop → Draft → Parser Draft
  | unitItems => Parser.unitItems limit
  | bodyItems => Parser.bodyItems limit
  | compound => Parser.compound limit
  | parameters => Parser.parameters limit
  | stars => fun d => step (Parser.stars d)
  | operands => Parser.operands limit

end Loop

namespace Task

abbrev Value : Task → Type
  | unit => Node
  | production _ => Node
  | loop _ _ => Draft
  | read => Unit

def parser (limit : Option Nat) : (c : Task) → Parser c.Value
  | unit => Parser.translationUnit limit
  | production p => p.parser limit
  | loop l d => l.parser limit d
  | read => fun s => ⟨.matched (), s.skip⟩

end Task

structure Call where
  task : Task
  state : State

/-- What remains to be done of a task: nothing, or a call for another one and what follows it. -/
inductive Plan (α : Type) where
  | done (r : Result α)
  | call (c : Task) (s : State) (next : Result c.Value → Plan α)

namespace Plan

variable {α β : Type} {limit : Option Nat}

/-- The result, if each call is answered as the task is carried out. -/
def run (limit : Option Nat) : Plan α → Result α
  | done r => r
  | call c s next => (next (c.parser limit s)).run limit

/-- The calls that are made then, in their order. -/
def calls (limit : Option Nat) : Plan α → List Call
  | done _ => []
  | call c s next => ⟨c, s⟩ :: (next (c.parser limit s)).calls limit

/-- The result, if each call is answered by someone who may have no answer. -/
def runWith (answer : (c : Task) → State → Option (Result c.Value)) : Plan α → Option (Result α)
  | done r => some r
  | call c s next => (answer c s).bind fun r => (next r).runWith answer

def bind (p : Plan α) (f : Result α → Plan β) : Plan β :=
  match p with
  | done r => f r
  | call c s next => call c s fun r => (next r).bind f

@[simp] theorem run_bind (p : Plan α) (f : Result α → Plan β) :
    (p.bind f).run limit = (f (p.run limit)).run limit := by
  induction p with
  | done r => rfl
  | call c s next ih => exact ih (c.parser limit s)

@[simp] theorem calls_bind (p : Plan α) (f : Result α → Plan β) :
    (p.bind f).calls limit = p.calls limit ++ (f (p.run limit)).calls limit := by
  induction p with
  | done r => rfl
  | call c s next ih => exact congrArg (⟨c, s⟩ :: ·) (ih (c.parser limit s))

theorem runWith_eq_some {answer : (c : Task) → State → Option (Result c.Value)} {p : Plan α}
    (h : ∀ a ∈ p.calls limit, answer a.task a.state = some (a.task.parser limit a.state)) :
    p.runWith answer = some (p.run limit) := by
  induction p with
  | done r => rfl
  | call c s next ih =>
    obtain ⟨hfirst, hrest⟩ := List.forall_mem_cons.mp h
    rw [runWith, show answer c s = some (c.parser limit s) from hfirst]
    exact ih (c.parser limit s) hrest

end Plan

/-- A parser that plans what it does at a state. -/
abbrev Scheme (α : Type) : Type := State → Plan α

namespace Scheme

variable {α β : Type} {limit : Option Nat}

/-- Goes on at what the result says: after a match with the value. -/
def goOn (f : α → Scheme β) : Result α → Plan β
  | ⟨.matched a, t⟩ => f a t
  | ⟨.mismatch, t⟩ => .done ⟨.mismatch, t⟩
  | ⟨.fatal e, t⟩ => .done ⟨.fatal e, t⟩

/-- Goes on at what the result says: after a mismatch with the other scheme. -/
def otherwise (q : Scheme α) : Result α → Plan α
  | ⟨.mismatch, t⟩ => q t
  | r => .done r

instance : Monad Scheme where
  pure a := fun s => .done ⟨.matched a, s⟩
  bind p f := fun s => (p s).bind (goOn f)

def of (p : Parser α) : Scheme α := fun s => .done (p s)

def call (c : Task) : Scheme c.Value := fun s => .call c s .done

def orElse (p q : Scheme α) : Scheme α := fun s => (p s).bind (otherwise q)

def tryRule (limit : Option Nat) (rule : Rule) (p : Scheme α) : Scheme α := fun s =>
  if s.isFull limit then .done (s.refuse rule)
  else (p (s.enter rule)).bind fun r => .done (s.leave rule r)

def parser (limit : Option Nat) (p : Scheme α) : Parser α := fun s => (p s).run limit

@[simp] theorem parser_pure (a : α) : (pure a : Scheme α).parser limit = pure a := rfl

@[simp] theorem parser_of (p : Parser α) : (of p).parser limit = p := rfl

@[simp] theorem parser_bind (p : Scheme α) (f : α → Scheme β) :
    (p >>= f).parser limit = p.parser limit >>= fun a => (f a).parser limit := by
  funext s
  have hrun : (p >>= f).parser limit s = (goOn f (p.parser limit s)).run limit :=
    Plan.run_bind _ _
  rw [hrun, Parser.bind_apply]
  rcases p.parser limit s with ⟨_ | _ | _, t⟩ <;> rfl

@[simp] theorem parser_orElse (p q : Scheme α) :
    (p.orElse q).parser limit = (p.parser limit).orElse (q.parser limit) := by
  funext s
  refine (Plan.run_bind _ _).trans ?_
  unfold Parser.orElse
  change (otherwise q (p.parser limit s)).run limit = _
  rcases p.parser limit s with ⟨_ | _ | _, t⟩ <;> rfl

@[simp] theorem parser_tryRule (rule : Rule) (p : Scheme α) :
    (tryRule limit rule p).parser limit = Parser.tryRule limit rule (p.parser limit) := by
  funext s
  unfold Scheme.parser tryRule Parser.tryRule
  split
  · rfl
  · exact Plan.run_bind _ _

@[simp] theorem parser_ite (c : Prop) [Decidable c] (p q : Scheme α) :
    (if c then p else q).parser limit = if c then p.parser limit else q.parser limit := by
  split <;> rfl

end Scheme

end MiniC
