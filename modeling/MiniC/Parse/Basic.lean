import MiniC.Parse.State

namespace MiniC

inductive Outcome (α : Type) where
  | matched (value : α)
  | mismatch
  | fatal (error : ParseError)

structure Result (α : Type) where
  outcome : Outcome α
  final : State

abbrev Parser (α : Type) : Type := State → Result α

namespace Result

variable {α β : Type}

def andThen (r : Result α) (f : α → Parser β) : Result β :=
  match r with
  | ⟨.matched a, t⟩ => f a t
  | ⟨.mismatch, t⟩ => ⟨.mismatch, t⟩
  | ⟨.fatal e, t⟩ => ⟨.fatal e, t⟩

@[simp] theorem andThen_matched (a : α) (t : State) (f : α → Parser β) :
    Result.andThen ⟨.matched a, t⟩ f = f a t := rfl

@[simp] theorem andThen_mismatch (t : State) (f : α → Parser β) :
    Result.andThen ⟨.mismatch, t⟩ f = ⟨.mismatch, t⟩ := rfl

@[simp] theorem andThen_fatal (e : ParseError) (t : State) (f : α → Parser β) :
    Result.andThen ⟨.fatal e, t⟩ f = ⟨.fatal e, t⟩ := rfl

def map (f : α → β) (r : Result α) : Result β := r.andThen fun a t => ⟨.matched (f a), t⟩

@[simp] theorem final_map (f : α → β) (r : Result α) : (r.map f).final = r.final := by
  rcases r with ⟨_ | _ | _, _⟩ <;> rfl

theorem matched_map {f : α → β} {r : Result α} {b : β} (h : (r.map f).outcome = .matched b) :
    ∃ a, r.outcome = .matched a ∧ f a = b := by
  rcases r with ⟨_ | _ | _, _⟩ <;> simp_all [map, andThen]

/-- Compared with `s`, no more tokens are left, and fewer after a match. -/
structure Consumed (s : State) (r : Result α) : Prop where
  le : r.final.left ≤ s.left
  lt : ∀ a, r.outcome = .matched a → r.final.left < s.left

theorem Consumed.map {s : State} (f : α → β) {r : Result α} (h : r.Consumed s) :
    (r.map f).Consumed s := by
  constructor
  · rw [final_map]
    exact h.le
  · intro b hb
    obtain ⟨a, ha, _⟩ := matched_map hb
    rw [final_map]
    exact h.lt a ha

theorem Consumed.mono {s t : State} {r : Result α} (h : r.Consumed t) (ht : t.left ≤ s.left) :
    r.Consumed s :=
  ⟨Nat.le_trans h.le ht, fun a ha => Nat.lt_of_lt_of_le (h.lt a ha) ht⟩

theorem consumed_mismatch {s t : State} (h : t.left ≤ s.left) :
    (⟨.mismatch, t⟩ : Result α).Consumed s :=
  ⟨h, fun _ ha => by simp at ha⟩

theorem consumed_fatal {s t : State} (e : ParseError) (h : t.left ≤ s.left) :
    (⟨.fatal e, t⟩ : Result α).Consumed s :=
  ⟨h, fun _ ha => by simp at ha⟩

end Result

namespace State

/-- Whether no further rule may be tried. Without a limit there is always room for one. -/
def isFull (s : State) : Option Nat → Bool
  | none => false
  | some limit => limit ≤ s.depth

def refuse {α : Type} (s : State) (rule : Rule) : Result α :=
  ⟨.fatal (.nestingTooDeep s.nextLine), s.record (.limitReached rule s.nextLine)⟩

def enter (s : State) (rule : Rule) : State :=
  { s with depth := s.depth + 1, log := .entered rule s.depth s.nextLine :: s.log }

/-- Ends a rule that was tried at `s`: if it did not match, the reader goes back there. -/
def leave {α : Type} (s : State) (rule : Rule) (r : Result α) : Result α :=
  match r with
  | ⟨.mismatch, t⟩ =>
    ⟨.mismatch,
      { t with
        reader := s.reader
        depth := t.depth - 1
        log := .backtracked rule s.reader.line :: t.log }⟩
  | ⟨o, t⟩ => ⟨o, { t with depth := t.depth - 1 }⟩

@[simp] theorem reader_enter (s : State) (rule : Rule) : (s.enter rule).reader = s.reader := rfl

theorem left_leave_le {α : Type} {s : State} (rule : Rule) {r : Result α}
    (h : r.final.left ≤ s.left) : (s.leave rule r).final.left ≤ s.left := by
  rcases r with ⟨_ | _ | _, t⟩
  · exact h
  · exact Nat.le_refl _
  · exact h

theorem matched_leave {α : Type} {s : State} {rule : Rule} {r : Result α} {a : α}
    (h : (s.leave rule r).outcome = .matched a) :
    r.outcome = .matched a ∧ (s.leave rule r).final.left = r.final.left := by
  rcases r with ⟨_ | _ | _, t⟩
  · exact ⟨h, rfl⟩
  · simp [leave] at h
  · simp [leave] at h

theorem consumed_leave {α : Type} {s : State} (rule : Rule) {r : Result α} (h : r.Consumed s) :
    (s.leave rule r).Consumed s := by
  refine ⟨left_leave_le rule h.le, fun a ha => ?_⟩
  obtain ⟨hr, hl⟩ := matched_leave ha
  rw [hl]
  exact h.lt a hr

theorem consumed_refuse {α : Type} (s : State) (rule : Rule) :
    (s.refuse rule : Result α).Consumed s :=
  Result.consumed_fatal _ (Nat.le_refl _)

end State

namespace Parser

variable {α β : Type}

instance : Monad Parser where
  pure a := fun s => ⟨.matched a, s⟩
  bind p f := fun s => (p s).andThen f

theorem pure_apply (a : α) (s : State) : (pure a : Parser α) s = ⟨.matched a, s⟩ := rfl

theorem bind_apply (p : Parser α) (f : α → Parser β) (s : State) :
    (p >>= f) s = (p s).andThen f := rfl

def mismatch : Parser α := fun s => ⟨.mismatch, s⟩

def step (f : State → α × State) : Parser α := fun s => ⟨.matched (f s).1, (f s).2⟩

def orElse (p q : Parser α) : Parser α := fun s =>
  match p s with
  | ⟨.mismatch, t⟩ => q t
  | r => r

/-- Tries a rule: if it does not match, the reader goes back to where it was. -/
def tryRule (limit : Option Nat) (rule : Rule) (p : Parser α) : Parser α := fun s =>
  if s.isFull limit then s.refuse rule else s.leave rule (p (s.enter rule))

def openNode (kind : NodeKind) (wanted : Nat) : Parser Draft := step (·.openNode kind wanted)

def append (d : Draft) (child : Node) : Parser Draft := step (·.append d child)

def nextKind : Parser TokenKind := step fun s => (s.nextKind, s)

def nextLine : Parser Nat := step fun s => (s.nextLine, s)

def record (e : State → Event) : Parser Unit := step fun s => ((), s.record (e s))

def expect (kind : TokenKind) : Parser Unit := fun s =>
  if s.nextKind = kind then ⟨.matched (), s.skip⟩ else ⟨.mismatch, s⟩

/-- Reads a token with the property into a leaf of a node. -/
def requiredLeaf (property : TokenKind → Bool) (d : Draft) : Parser Draft := fun s =>
  if property s.nextKind then step (·.addLeaf d) s else ⟨.mismatch, s⟩

def optionalLeaf (property : TokenKind → Bool) (d : Draft) : Parser Draft := fun s =>
  if property s.nextKind then step (·.addLeaf d) s else ⟨.matched d, s⟩

def refuseConstruct (construct : Construct) : Parser α := fun s =>
  ⟨.fatal (.unsupported construct s.nextLine), s.record (.unsupported construct s.nextLine)⟩

def nodeOf (kind : NodeKind) (line : Nat) (children : List Node) : Parser Node := fun s =>
  let d := Draft.empty kind line children.length
  let start := (d, s.withArena (s.arena.reserveAll d.requests))
  let (d, t) := children.foldl (fun (d, t) child => t.append d child) start
  ⟨.matched d.close, t⟩

/-- No more tokens are left than there were. -/
def Reads (p : Parser α) : Prop := ∀ s, (p s).final.left ≤ s.left

/-- In addition, a match leaves fewer tokens than there were. -/
def Consumes (p : Parser α) : Prop := ∀ s, (p s).Consumed s

theorem Consumes.reads {p : Parser α} (h : Consumes p) : Reads p := fun s => (h s).le

theorem Consumes.lt {p : Parser α} (h : Consumes p) {s t : State} {a : α}
    (hp : p s = ⟨.matched a, t⟩) : t.left < s.left := by
  have := (h s).lt a (by rw [hp])
  rwa [hp] at this

theorem Reads.le {p : Parser α} (h : Reads p) {s t : State} {o : Outcome α}
    (hp : p s = ⟨o, t⟩) : t.left ≤ s.left := by
  have := h s
  rwa [hp] at this

theorem reads_pure (a : α) : Reads (pure a : Parser α) := fun _ => Nat.le_refl _

theorem reads_step {f : State → α × State} (h : ∀ s, (f s).2.reader = s.reader) :
    Reads (step f) := fun s => by simp [step, State.left, h]

theorem Reads.andThen {p : Parser α} {f : α → Parser β} (hp : Reads p) (hf : ∀ a, Reads (f a)) :
    Reads (p >>= f) := by
  intro s
  have h := hp s
  rw [bind_apply]
  revert h
  rcases p s with ⟨a | _ | _, t⟩ <;> intro h
  · exact Nat.le_trans (hf a t) h
  · exact h
  · exact h

theorem Consumes.andThen {p : Parser α} {f : α → Parser β} (hp : Consumes p)
    (hf : ∀ a, Reads (f a)) : Consumes (p >>= f) := by
  intro s
  rw [bind_apply]
  cases h : p s with
  | mk o t =>
    cases o with
    | matched a =>
      have := Nat.lt_of_le_of_lt (hf a t) (hp.lt h)
      exact ⟨Nat.le_of_lt this, fun _ _ => this⟩
    | mismatch => exact Result.consumed_mismatch (hp.reads.le h)
    | fatal e => exact Result.consumed_fatal e (hp.reads.le h)

theorem Reads.thenConsumes {p : Parser α} {f : α → Parser β} (hp : Reads p)
    (hf : ∀ a, Consumes (f a)) : Consumes (p >>= f) := by
  intro s
  rw [bind_apply]
  cases h : p s with
  | mk o t =>
    cases o with
    | matched a => exact (hf a t).mono (hp.le h)
    | mismatch => exact Result.consumed_mismatch (hp.le h)
    | fatal e => exact Result.consumed_fatal e (hp.le h)

theorem Reads.orElse {p q : Parser α} (hp : Reads p) (hq : Reads q) : Reads (p.orElse q) := by
  intro s
  have h := hp s
  unfold Parser.orElse
  revert h
  rcases p s with ⟨a | _ | _, t⟩ <;> intro h
  · exact h
  · exact Nat.le_trans (hq t) h
  · exact h

theorem Consumes.orElse {p q : Parser α} (hp : Consumes p) (hq : Consumes q) :
    Consumes (p.orElse q) := by
  intro s
  unfold Parser.orElse
  cases h : p s with
  | mk o t =>
    cases o with
    | matched b => simpa [h] using hp s
    | mismatch => exact (hq t).mono (hp.reads.le h)
    | fatal e => simpa [h] using hp s

theorem Reads.tryRule {limit : Option Nat} {rule : Rule} {p : Parser α} (hp : Reads p) :
    Reads (tryRule limit rule p) := by
  intro s
  unfold Parser.tryRule
  split
  · exact Nat.le_refl _
  · exact State.left_leave_le rule (hp (s.enter rule))

theorem Consumes.tryRule {limit : Option Nat} {rule : Rule} {p : Parser α} (hp : Consumes p) :
    Consumes (tryRule limit rule p) := by
  intro s
  unfold Parser.tryRule
  split
  · exact s.consumed_refuse rule
  · exact State.consumed_leave rule ((hp (s.enter rule)).mono (Nat.le_refl _))

theorem reads_openNode (kind : NodeKind) (wanted : Nat) : Reads (openNode kind wanted) :=
  reads_step fun _ => rfl

theorem reads_append (d : Draft) (child : Node) : Reads (append d child) :=
  reads_step fun _ => rfl

theorem reads_nextKind : Reads nextKind := reads_step fun _ => rfl

theorem reads_nextLine : Reads nextLine := reads_step fun _ => rfl

theorem consumes_refuseConstruct (construct : Construct) :
    Consumes (refuseConstruct construct : Parser α) :=
  fun _ => Result.consumed_fatal _ (Nat.le_refl _)

theorem reads_expect {kind : TokenKind} (h : kind ≠ .eof) : Reads (expect kind) := by
  intro s
  unfold expect
  split
  · next hk => exact Nat.le_of_lt (State.left_skip_lt (hk ▸ h))
  · exact Nat.le_refl _

theorem consumes_expect {kind : TokenKind} (h : kind ≠ .eof) : Consumes (expect kind) := by
  refine fun s => ⟨reads_expect h s, fun a => ?_⟩
  unfold expect
  split
  · next hk => exact fun _ => State.left_skip_lt (hk ▸ h)
  · simp

theorem reads_requiredLeaf {property : TokenKind → Bool} (h : property .eof = false) (d : Draft) :
    Reads (requiredLeaf property d) := by
  intro s
  unfold requiredLeaf
  split
  · next hk => exact Nat.le_of_lt (State.left_addLeaf_lt d fun he => by simp [he, h] at hk)
  · exact Nat.le_refl _

theorem consumes_requiredLeaf {property : TokenKind → Bool} (h : property .eof = false)
    (d : Draft) : Consumes (requiredLeaf property d) := by
  refine fun s => ⟨reads_requiredLeaf h d s, fun a => ?_⟩
  unfold requiredLeaf
  split
  · next hk => exact fun _ => State.left_addLeaf_lt d fun he => by simp [he, h] at hk
  · simp

theorem reads_optionalLeaf {property : TokenKind → Bool} (h : property .eof = false) (d : Draft) :
    Reads (optionalLeaf property d) := by
  intro s
  unfold optionalLeaf
  split
  · next hk => exact Nat.le_of_lt (State.left_addLeaf_lt d fun he => by simp [he, h] at hk)
  · exact Nat.le_refl _

theorem reads_nodeOf (kind : NodeKind) (line : Nat) (children : List Node) :
    Reads (nodeOf kind line children) := by
  have keep (start : Draft × State) :
      (children.foldl (fun (d, t) child => t.append d child) start).2.reader = start.2.reader := by
    induction children generalizing start with
    | nil => rfl
    | cons c cs ih => rw [List.foldl_cons, ih, State.reader_append]
  intro s
  simp only [nodeOf, State.left]
  rw [keep]
  exact Nat.le_refl _

end Parser

end MiniC
