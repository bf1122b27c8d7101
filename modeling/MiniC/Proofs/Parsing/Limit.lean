import MiniC.Proofs.Parsing.CoupledRules

namespace MiniC

namespace Event

/-- If a rule is tried, then with fewer others in progress than there may be rules. -/
def Below (limit : Nat) : Event → Prop
  | .entered _ depth _ => depth < limit
  | _ => True

/-- The line on which a rule is tried with so many others in progress. -/
def enteredAt? (depth : Nat) : Event → Option Nat
  | .entered _ d line => if d = depth then some line else none
  | _ => none

theorem Below.enteredAt?_eq_none {limit : Nat} {e : Event} (h : e.Below limit) :
    e.enteredAt? limit = none := by
  cases e with
  | entered rule depth line => exact if_neg (Nat.ne_of_lt h)
  | _ => rfl

theorem Like.below {line : Nat → Nat → Prop} {e e' : Event} (h : e.Like line e') (limit : Nat) :
    e.Below limit := by
  cases h <;> trivial

theorem below_of_mem_ofBlocks {limit count : Nat} {bs : List Block} {e : Event}
    (h : e ∈ ofBlocks count bs) : e.Below limit := by
  induction bs generalizing count with
  | nil => simp [ofBlocks] at h
  | cons b bs ih =>
    rcases List.mem_cons.mp h with rfl | h
    · trivial
    · exact ih h

end Event

/-- Since the log was `old`, rules were tried only with fewer than `limit` others in progress. -/
def LogBelow (limit : Nat) (old log : List Event) : Prop :=
  ∃ events, log = events ++ old ∧ ∀ e ∈ events, e.Below limit

/-- Since the log was `old`, the first rule that was tried with `limit` others in progress was tried
on this line. -/
def LimitMet (limit : Nat) (old log : List Event) (line : Nat) : Prop :=
  ∃ rule later earlier, log = later ++ .entered rule limit line :: earlier ∧
    LogBelow limit old earlier

section Log

variable {limit line : Nat} {old log later : List Event} {e : Event}

theorem LogBelow.refl (limit : Nat) (log : List Event) : LogBelow limit log log :=
  ⟨[], rfl, by simp⟩

theorem LogBelow.append {events : List Event} (h : LogBelow limit old log)
    (he : ∀ e ∈ events, e.Below limit) : LogBelow limit old (events ++ log) := by
  obtain ⟨earlier, rfl, hb⟩ := h
  refine ⟨events ++ earlier, (List.append_assoc _ _ _).symm, fun e h => ?_⟩
  rcases List.mem_append.mp h with h | h
  · exact he e h
  · exact hb e h

theorem LogBelow.cons (h : LogBelow limit old log) (he : e.Below limit) :
    LogBelow limit old (e :: log) := by
  have hone : LogBelow limit old ([e] ++ log) := h.append (by simpa using he)
  exact hone

theorem LogBelow.withArena {s : State} (h : LogBelow limit old s.log) (arena : Arena) :
    LogBelow limit old (s.withArena arena).log :=
  h.append fun _ he => Event.below_of_mem_ofBlocks he

theorem LogBelow.internToken {s : State} (h : LogBelow limit old s.log) (t : Token) :
    LogBelow limit old (s.internToken t).2.log := by
  unfold State.internToken
  split
  · exact h
  · exact h.withArena _

theorem LimitMet.mono (h : LimitMet limit old log line) (hl : log <:+ later) :
    LimitMet limit old later line := by
  obtain ⟨rule, further, earlier, rfl, hb⟩ := h
  obtain ⟨more, rfl⟩ := hl
  exact ⟨rule, more ++ further, earlier, (List.append_assoc _ _ _).symm, hb⟩

theorem findSome?_of_below {events : List Event} (h : ∀ e ∈ events, e.Below limit) :
    events.reverse.findSome? (Event.enteredAt? limit) = none := by
  refine List.findSome?_eq_none_iff.mpr fun e he => ?_
  exact (h e (List.mem_reverse.mp he)).enteredAt?_eq_none

theorem LimitMet.findSome? {events : List Event}
    (h : LimitMet limit old (events ++ old) line) :
    events.reverse.findSome? (Event.enteredAt? limit) = some line := by
  obtain ⟨rule, later, earlier, hlog, before, rfl, hb⟩ := h
  have hevents : events = later ++ .entered rule limit line :: before := by
    refine (List.append_left_inj old).mp ?_
    simpa using hlog
  have hnone := findSome?_of_below hb
  have hsome : Event.enteredAt? limit (.entered rule limit line) = some line := if_pos rfl
  rw [hevents]
  simp [hnone, hsome]

end Log

/-- What a limit does to a parse from `s` on, whose result without a limit is `r'`. -/
structure Result.Limited {α : Type} (limit : Nat) (s : State) (r r' : Result α) : Prop where
  log : LogBelow limit s.log r.final.log
  agrees : (r = r' ∧ ∀ line, r.outcome ≠ .fatal (.nestingTooDeep line)) ∨
    ∃ line, r.outcome = .fatal (.nestingTooDeep line) ∧ LimitMet limit s.log r'.final.log line

namespace Result.Limited

variable {α : Type} {limit : Nat} {s : State} {r r' : Result α}

/-- The log without a limit tells whether the parse is given up for it, and on which line. -/
theorem nestingTooDeep_iff (h : r.Limited limit s r') {events : List Event}
    (hlog : r'.final.log = events ++ s.log) (line : Nat) :
    r.outcome = .fatal (.nestingTooDeep line) ↔
      events.reverse.findSome? (Event.enteredAt? limit) = some line := by
  rcases h.agrees with ⟨heq, hno⟩ | ⟨first, hfirst, hmet⟩
  · obtain ⟨events', hlog', hbelow⟩ := h.log
    rw [heq, hlog] at hlog'
    obtain rfl := List.append_cancel_right hlog'
    rw [findSome?_of_below hbelow]
    exact iff_of_false (hno line) (by simp)
  · rw [hlog] at hmet
    rw [hmet.findSome?, hfirst]
    simp

theorem eq_of_ne (h : r.Limited limit s r')
    (hno : ∀ line, r.outcome ≠ .fatal (.nestingTooDeep line)) : r = r' := by
  rcases h.agrees with ⟨heq, -⟩ | ⟨line, hline, -⟩
  · exact heq
  · exact absurd hline (hno line)

end Result.Limited

def limitCoupling (limit : Nat) (old : List Event) : Coupling where
  limit := some limit
  limit' := none
  line := Eq
  text := Eq
  state s t := s = t ∧ s.depth ≤ limit ∧ LogBelow limit old s.log
  error e e' := e = e' ∧ ∀ line, e ≠ .nestingTooDeep line
  lost e log later := LogBelow limit old log ∧
    ∃ line, e = .nestingTooDeep line ∧ LimitMet limit old later line
  nextKind := by
    rintro s t ⟨rfl, -⟩
    rfl
  nextLine := by
    rintro s t ⟨rfl, -⟩
    rfl
  lastLine := by
    rintro s t ⟨rfl, -⟩
    rfl
  noText := rfl
  unsupported := by
    rintro s t construct ⟨rfl, -⟩
    exact ⟨rfl, by simp⟩
  unrecognized := by
    rintro s t ⟨rfl, -⟩
    exact ⟨rfl, by simp⟩
  nestingTooDeep := by
    rintro s t - - h
    simp [State.isFull] at h
  record := by
    rintro s t e e' ⟨rfl, hd, hlog⟩ he
    have hbelow := he.below limit
    exact ⟨by rw [he.eq], hd, hlog.cons hbelow⟩
  skip := by
    rintro s t ⟨rfl, hd, hlog⟩ -
    exact ⟨rfl, hd, hlog⟩
  intern := by
    rintro s t ⟨rfl, hd, hlog⟩ -
    have hdepth := (s.skip.kept_internToken s.reader.next).depth
    refine ⟨rfl, rfl, Nat.le_trans (Nat.le_of_eq hdepth) hd, ?_⟩
    exact LogBelow.internToken (s := s.skip) hlog _
  reserve := by
    rintro s t requests ⟨rfl, hd, hlog⟩ -
    exact ⟨rfl, hd, hlog.withArena _⟩
  enter := by
    rintro s t rule ⟨rfl, hd, hlog⟩ h
    have hlt : s.depth < limit := by simpa [State.isFull] using h
    exact ⟨rfl, rfl, hlt, hlog.cons hlt⟩
  lose := by
    rintro s t later rule ⟨rfl, hd, hlog⟩ h - hlater
    have hle : limit ≤ s.depth := by simpa [State.isFull] using h
    have heq : s.depth = limit := Nat.le_antisymm hd hle
    refine ⟨hlog.cons trivial, s.nextLine, rfl, ?_⟩
    refine LimitMet.mono ⟨rule, [], s.log, ?_, hlog⟩ hlater
    rw [← heq]
    rfl
  back := by
    rintro s t u v ⟨rfl, -, -⟩ ⟨rfl, hd, hlog⟩
    exact ⟨rfl, hd, hlog⟩
  leave := by
    rintro s t ⟨rfl, hd, hlog⟩
    exact ⟨rfl, Nat.le_trans (Nat.sub_le _ _) hd, hlog⟩
  lost_mono := by
    rintro e log later later' ⟨hlog, line, rfl, hmet⟩ hlater
    exact ⟨hlog, line, rfl, hmet.mono hlater⟩

namespace Parser

theorem limited_of_couple {limit : Nat} {s : State} {p p' : Parser Node} (hd : s.depth ≤ limit)
    (h : Couple (limitCoupling limit s.log) (Nodes (limitCoupling limit s.log)) p p') :
    (p s).Limited limit s (p' s) := by
  have hs : (limitCoupling limit s.log).state s s := ⟨rfl, hd, .refl limit s.log⟩
  have hr := h s s hs
  generalize p s = r at hr
  generalize p' s = r' at hr
  cases hr with
  | matched hn hst =>
    obtain ⟨rfl, -, hlog⟩ := hst
    exact ⟨hlog, .inl ⟨by rw [Node.Like.eq hn], by simp⟩⟩
  | mismatch hst =>
    obtain ⟨rfl, -, hlog⟩ := hst
    exact ⟨hlog, .inl ⟨rfl, by simp⟩⟩
  | fatal he hst =>
    obtain ⟨rfl, -, hlog⟩ := hst
    obtain ⟨rfl, hne⟩ := he
    exact ⟨hlog, .inl ⟨rfl, by simpa using hne⟩⟩
  | lost hl =>
    obtain ⟨hlog, line, rfl, hmet⟩ := hl
    exact ⟨hlog, .inr ⟨line, rfl, hmet⟩⟩

/-- With a limit a translation unit is given up for it or parsed as without one. -/
theorem translationUnit_limited {limit : Nat} {s : State} (hd : s.depth ≤ limit) :
    (translationUnit (some limit) s).Limited limit s (translationUnit none s) :=
  limited_of_couple hd (couple_translationUnit (limitCoupling limit s.log))

end Parser

end MiniC
