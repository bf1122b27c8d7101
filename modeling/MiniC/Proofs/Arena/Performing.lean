import Mathlib.Data.List.Forall2
import MiniC.Proofs.Arena.Isolation

namespace MiniC

namespace Heap

/-- Runs the commands one after another, if none of them is refused. -/
def perform (h : Heap) : List Command → Except Fault Heap
  | [] => .ok h
  | c :: cs =>
    match h.run c with
    | .ok after => after.perform cs
    | .error fault => .error fault

variable {h after : Heap} {cs ds : List Command} {c : Command} {r : Request}

theorem perform_cons_eq_ok :
    h.perform (c :: cs) = .ok after ↔ ∃ mid, h.run c = .ok mid ∧ mid.perform cs = .ok after := by
  rw [perform]
  cases h.run c <;> simp

theorem perform_append (h : Heap) (cs ds : List Command) :
    h.perform (cs ++ ds) =
      match h.perform cs with
      | .ok mid => mid.perform ds
      | .error fault => .error fault := by
  induction cs generalizing h with
  | nil => rfl
  | cons c cs ih =>
    simp only [List.cons_append, perform]
    cases h.run c with
    | error fault => rfl
    | ok mid => exact ih mid

theorem perform_append_eq_ok :
    h.perform (cs ++ ds) = .ok after ↔
      ∃ mid, h.perform cs = .ok mid ∧ mid.perform ds = .ok after := by
  rw [perform_append]
  cases h.perform cs <;> simp

theorem perform_singleton : h.perform [c] = h.run c := by
  rw [perform]
  cases h.run c <;> rfl

theorem attemptAll_of_perform (hp : h.perform cs = .ok after) :
    h.attemptAll cs = after ∧ h.granted cs = cs := by
  induction cs generalizing h with
  | nil => exact ⟨Except.ok.inj hp, rfl⟩
  | cons c cs ih =>
    obtain ⟨mid, hrun, hrest⟩ := perform_cons_eq_ok.mp hp
    obtain ⟨hall, hgranted⟩ := ih hrest
    constructor
    · rw [attemptAll, attempt, hrun]
      exact hall
    · rw [granted, hrun]
      exact congrArg _ hgranted

/-- The command asks the arena for `r`, and is refused only if that is. -/
def Asks (h : Heap) (c : Command) (r : Request) : Prop :=
  (h.run c).map (·.arena) = (h.arena.allocate r).map (·.2)

theorem grant_map_arena (make : Region → Handle) (init : Memory → Region → Memory) :
    (h.grant r make init).map (·.arena) = (h.arena.allocate r).map (·.2) := by
  unfold grant
  cases h.arena.allocate r <;> rfl

theorem perform_map_arena {rs : List Request}
    (hask : List.Forall₂ (fun c r => ∀ h : Heap, h.Asks c r) cs rs) :
    (h.perform cs).map (·.arena) = h.arena.allocateAll rs := by
  induction hask generalizing h with
  | nil => rfl
  | @cons c r cs rs hc hrest ih =>
    have hfirst : (h.run c).map (·.arena) = (h.arena.allocate r).map (·.2) := hc h
    rw [perform, Arena.allocateAll]
    cases hrun : h.run c with
    | error fault =>
      cases ha : h.arena.allocate r <;> simp_all [Except.map]
    | ok mid =>
      cases ha : h.arena.allocate r with
      | error fault => simp_all [Except.map]
      | ok granted =>
        rw [hrun, ha] at hfirst
        obtain harena : mid.arena = granted.2 := Except.ok.inj hfirst
        simp only [← harena]
        exact ih

/-- All handles are kept. -/
def Extends (h after : Heap) : Prop :=
  ∀ (i : Nat) (x : Handle), h.handles[i]? = some x → after.handles[i]? = some x

theorem Extends.trans {mid : Heap} (h₁ : h.Extends mid) (h₂ : mid.Extends after) :
    h.Extends after := fun i x hx => h₂ i x (h₁ i x hx)

theorem Extends.size_le (he : h.Extends after) : h.handles.size ≤ after.handles.size := by
  refine Nat.le_of_not_lt fun hlt => ?_
  have hx := he _ _ (Array.getElem?_eq_getElem hlt)
  exact absurd (Array.getElem?_eq_some_iff.mp hx).1 (Nat.lt_irrefl _)

theorem extends_of_push {x : Handle} (hh : after.handles = h.handles.push x) :
    h.Extends after := by
  intro i y hy
  obtain ⟨hi, -⟩ := Array.getElem?_eq_some_iff.mp hy
  rw [hh, Array.getElem?_push, if_neg hi.ne]
  exact hy

theorem extends_run (hrun : h.run c = .ok after) : h.Extends after := by
  rcases run_cases hrun with ⟨-, -, hh⟩ | ⟨r, -, x, -, hh⟩
  · intro i y hy
    rwa [hh]
  · exact extends_of_push hh

theorem extends_perform (hp : h.perform cs = .ok after) : h.Extends after := by
  induction cs generalizing h with
  | nil =>
    obtain rfl := Except.ok.inj hp
    exact fun i x hx => hx
  | cons c cs ih =>
    obtain ⟨mid, hrun, hrest⟩ := perform_cons_eq_ok.mp hp
    exact (extends_run hrun).trans (ih hrest)

theorem disjoint_of_perform (hp : h.perform cs = .ok after)
    (hd : after.arena.chain.Pairwise Block.Disjoint) : h.arena.chain.Pairwise Block.Disjoint := by
  obtain ⟨rfl, -⟩ := attemptAll_of_perform hp
  exact disjoint_of_attemptAll hd

end Heap

namespace Contents

open Heap (Command)

theorem record_of_makes {c : Command} (hc : c.Makes) (known : List Contents) :
    ∃ more, record known c = known ++ more := by
  cases c with
  | resize handle size align =>
    simp only [record]
    split
    · exact ⟨_, rfl⟩
    · exact ⟨[], (List.append_nil known).symm⟩
  | lengthen handle length v =>
    simp only [record]
    split
    · exact ⟨_, rfl⟩
    · exact ⟨[], (List.append_nil known).symm⟩
  | setElement | setByte | fill => exact hc.elim
  | _ => exact ⟨_, rfl⟩

theorem foldl_record_of_makes {cs : List Command} (hcs : ∀ c ∈ cs, c.Makes)
    (known : List Contents) : ∃ more, cs.foldl record known = known ++ more := by
  induction cs generalizing known with
  | nil => exact ⟨[], (List.append_nil known).symm⟩
  | cons c cs ih =>
    obtain ⟨first, hfirst⟩ := record_of_makes (hcs c List.mem_cons_self) known
    obtain ⟨rest, hrest⟩ := ih (fun c hc => hcs c (List.mem_cons_of_mem _ hc)) (known ++ first)
    exact ⟨first ++ rest, by rw [List.foldl_cons, hfirst, hrest, List.append_assoc]⟩

end Contents

namespace Heap.Tracks

variable {h after : Heap} {known : List Contents} {cs : List Command}

theorem perform (ht : h.Tracks known) (hp : h.perform cs = .ok after)
    (hd : after.arena.chain.Pairwise Block.Disjoint) :
    after.Tracks (cs.foldl Contents.record known) := by
  obtain ⟨rfl, hgranted⟩ := attemptAll_of_perform hp
  have hall := ht.attemptAll cs hd
  rwa [hgranted] at hall

theorem perform_makes (ht : h.Tracks known) (hp : h.perform cs = .ok after)
    (hcs : ∀ c ∈ cs, c.Makes) (hd : after.arena.chain.Pairwise Block.Disjoint) :
    ∃ more, after.Tracks (known ++ more) := by
  obtain ⟨more, hmore⟩ := Contents.foldl_record_of_makes hcs known
  exact ⟨more, hmore ▸ ht.perform hp hd⟩

theorem length_of_slice {i length : Nat} {r : Region} {layout layout' : Layout}
    {elements : List Nat} (ht : h.Tracks known)
    (hr : h.handles[i]? = some (.slice r layout length))
    (hc : known[i]? = some (.slice layout' elements)) : elements.length = length := by
  obtain ⟨hm, -⟩ := ht.behind i _ _ hr hc
  cases hm with
  | slice length_eq size => exact length_eq.symm

end Heap.Tracks

end MiniC
