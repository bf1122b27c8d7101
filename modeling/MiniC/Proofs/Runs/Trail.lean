import MiniC.Parse.Session
import MiniC.Proofs.Parsing.Layout
import MiniC.Proofs.Runs.Composed

namespace MiniC

/-- What is put into the arena: the bytes of a text, or what nodes take. -/
inductive Deposit where
  | text (s : String)
  | node (r : Request)
  deriving DecidableEq

def Deposit.request : Deposit → Request
  | text s => .text s
  | node r => r

namespace State

/-- What is put into the arena for the text of a token, unless it is there already. -/
def textDeposits (s : State) (token : Token) : List Deposit :=
  match token.identifier? with
  | none => []
  | some text => if s.interner.texts[text]?.isSome then [] else [.text text]

def leafDeposits (s : State) : List Deposit := s.textDeposits s.reader.next ++ [.node Node.request]

/-- From one state to another these leaves were made, in this order, and this was put into the arena.
What is read, what is taken back and what is noted down does not matter. -/
inductive Trail : State → List Node → List Deposit → State → Prop where
  | refl (s : State) : Trail s [] [] s
  | trans {s t u : State} {leaves leaves' : List Node} {deposits deposits' : List Deposit} :
      Trail s leaves deposits t → Trail t leaves' deposits' u →
      Trail s (leaves ++ leaves') (deposits ++ deposits') u
  | move (s : State) (reader : Reader) (depth : Nat) (log : List Event) :
      Trail s [] [] { s with reader := reader, depth := depth, log := log }
  | reserve (s : State) {requests : List Request} : (∀ r ∈ requests, r.IsForNodes) →
      Trail s [] (requests.map .node) (s.withArena (s.arena.reserveAll requests))
  | leaf (s : State) : Trail s [s.takeLeaf.1] s.leafDeposits s.takeLeaf.2

end State

theorem Arena.reserveAll_append (a : Arena) (rs rs' : List Request) :
    a.reserveAll (rs ++ rs') = (a.reserveAll rs).reserveAll rs' := by
  induction rs generalizing a with
  | nil => rfl
  | cons r rs ih => exact ih (a.reserve r).2

namespace State

theorem takeLeaf_cases (s : State) :
    (s.takeLeaf.1.text? = none ∧ s.takeLeaf.2.interner = s.interner ∧
      s.takeLeaf.2.arena = (s.arena.reserve Node.request).2 ∧
      s.leafDeposits = [.node Node.request]) ∨
    ∃ text : String, let r := s.interner.intern s.arena text
      s.takeLeaf.1.text? = some r.1 ∧ s.takeLeaf.2.interner = r.2.1 ∧
      s.takeLeaf.2.arena = (r.2.2.reserve Node.request).2 ∧
      s.leafDeposits =
        (if s.interner.texts[text]?.isSome then [] else [.text text]) ++ [.node Node.request] := by
  unfold takeLeaf internToken leafDeposits textDeposits
  cases s.reader.next.identifier? with
  | none => exact .inl ⟨rfl, rfl, rfl, rfl⟩
  | some text => exact .inr ⟨text, rfl, rfl, rfl, rfl⟩

theorem arena_takeLeaf (s : State) :
    s.takeLeaf.2.arena = s.arena.reserveAll (s.leafDeposits.map Deposit.request) := by
  obtain ⟨-, -, harena, hdeposits⟩ | ⟨text, -, -, harena, hdeposits⟩ := s.takeLeaf_cases
  · rw [harena, hdeposits]
    rfl
  · rw [harena, hdeposits]
    cases h : s.interner.texts[text]? with
    | some x =>
      rw [Interner.intern_of_some h]
      rfl
    | none =>
      rw [Interner.intern_of_none h]
      rfl

namespace Trail

variable {s t : State} {leaves : List Node} {deposits : List Deposit}

/-- Nothing else is done to the arena. -/
theorem arena_eq (h : s.Trail leaves deposits t) :
    t.arena = s.arena.reserveAll (deposits.map Deposit.request) := by
  induction h with
  | refl s => rfl
  | trans _ _ ih ih' => rw [ih', ih, List.map_append, Arena.reserveAll_append]
  | move s => rfl
  | reserve s _ =>
    rw [List.map_map, show Deposit.request ∘ Deposit.node = id from rfl, List.map_id]
    rfl
  | leaf s => exact s.arena_takeLeaf

end Trail

theorem Steps.exists_trail {s t : State} (h : s.Steps t) : ∃ leaves deposits, s.Trail leaves deposits t := by
  induction h with
  | refl s => exact ⟨_, _, .refl s⟩
  | trans _ _ ih ih' =>
    obtain ⟨_, _, h⟩ := ih
    obtain ⟨_, _, h'⟩ := ih'
    exact ⟨_, _, h.trans h'⟩
  | skip s => exact ⟨_, _, .move s _ _ _⟩
  | duplicate s => exact ⟨_, _, .move s _ _ _⟩
  | reserve s h => exact ⟨_, _, .reserve s h⟩
  | leaf s => exact ⟨_, _, .leaf s⟩

end State

namespace Parser

variable {α : Type} {limit : Option Nat} {tried : Rule → Prop} {p : Parser α} {s : State}

theorem Composed.exists_trail (h : Composed limit tried p s) :
    ∃ leaves deposits, s.Trail leaves deposits (p s).final := by
  induction h with
  | matched h hsteps =>
    rw [h]
    exact hsteps.exists_trail
  | mismatch h hsteps =>
    rw [h]
    exact hsteps.exists_trail
  | @fatal _ _ s event _ h _ =>
    rw [h]
    exact ⟨_, _, .move s _ _ _⟩
  | @bind _ _ p f s _ _ ihp ihf =>
    rw [bind_apply]
    obtain ⟨_, _, hp⟩ := ihp
    rcases h : p s with ⟨a | _ | e, t⟩ <;> rw [h] at hp
    · obtain ⟨_, _, hf⟩ := ihf a t h
      exact ⟨_, _, hp.trans hf⟩
    · exact ⟨_, _, hp⟩
    · exact ⟨_, _, hp⟩
  | @orElse _ p q s _ _ ihp ihq =>
    obtain ⟨_, _, hp⟩ := ihp
    unfold Parser.orElse
    rcases h : p s with ⟨a | _ | e, t⟩ <;> rw [h] at hp
    · exact ⟨_, _, hp⟩
    · obtain ⟨_, _, hq⟩ := ihq t h
      exact ⟨_, _, hp.trans hq⟩
    · exact ⟨_, _, hp⟩
  | @rule rule p s _ _ ih =>
    obtain ⟨_, _, hp⟩ := ih
    -- whatever comes of the attempt, what it took stays taken
    have henter : s.Trail [] [] (s.enter rule) := .move s _ _ _
    unfold tryRule
    split
    · exact ⟨_, _, .move s _ _ _⟩
    · rcases h : p (s.enter rule) with ⟨a | _ | e, t⟩ <;> rw [h] at hp
      · exact ⟨_, _, (henter.trans hp).trans (.move t _ _ _)⟩
      · exact ⟨_, _, (henter.trans hp).trans (.move t _ _ _)⟩
      · exact ⟨_, _, (henter.trans hp).trans (.move t _ _ _)⟩
  | as q h _ ih =>
    rw [h]
    exact ih

theorem exists_trail_translationUnit (limit : Option Nat) (s : State) :
    ∃ leaves deposits, s.Trail leaves deposits (translationUnit limit s).final := by
  let opened := s.openNode .translationUnit 4
  have hcomposed : Composed limit anyRule (unitItems limit opened.1) opened.2 :=
    IsComposed.composed opened.2
  obtain ⟨_, _, hopen⟩ := (s.steps_openNode .translationUnit 4).exists_trail
  obtain ⟨_, _, hitems⟩ := hcomposed.exists_trail
  have hall := hopen.trans hitems
  obtain ⟨d, t, hd, h⟩ | ⟨e, t, he, h⟩ := translationUnit_cases limit s
  · rw [show unitItems limit opened.1 opened.2 = _ from hd] at hall
    rw [h]
    exact ⟨_, _, hall.trans (.move t _ _ _)⟩
  · rw [show unitItems limit opened.1 opened.2 = _ from he] at hall
    rw [h]
    exact ⟨_, _, hall⟩

end Parser

end MiniC
