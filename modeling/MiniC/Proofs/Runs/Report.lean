import MiniC.Proofs.Parsing.Program
import MiniC.Proofs.Runs.Composed

namespace MiniC

namespace Event

/-- The events that end the parse of a unit. -/
def endsUnit : Event → Bool
  | .limitReached _ _ | .unsupported _ _ | .unitParsed _ _ | .unitRejected _ => true
  | _ => false

/-- The event does not end the parse of a unit, and takes back no rules but `tried`. -/
def IsQuiet (tried : Rule → Prop) : Event → Prop
  | .backtracked rule _ => tried rule
  | e => e.endsUnit = false

/-- The events of steps that cannot fail. -/
def isMinor : Event → Bool
  | .duplicateQualifier _ _ | .blockAdded _ _ => true
  | _ => false

theorem IsQuiet.endsUnit_eq {tried : Rule → Prop} {e : Event} (h : e.IsQuiet tried) :
    e.endsUnit = false := by
  cases e with
  | backtracked rule line => rfl
  | _ => exact h

theorem isQuiet_of_isMinor {tried : Rule → Prop} {e : Event} (h : e.isMinor = true) :
    e.IsQuiet tried := by
  cases e <;> simp_all [isMinor, IsQuiet, endsUnit]

/-- The messages about the outcome of a parse. -/
def outcomeMessages : List String :=
  ["translation unit parsed", "translation unit rejected", "unsupported construct",
    "nesting limit reached"]

theorem endsUnit_iff {e : Event} :
    e.endsUnit = true ↔ ∃ line ∈ e.record?, line.message ∈ outcomeMessages := by
  cases e <;> simp [endsUnit, record?, outcomeMessages]

/-- The event is shown as the line with which a parse that ends so is to be reported. -/
inductive Reports (event : Event) : Result Node → Prop where
  | parsed {n : Node} {t : State} :
      event.record? = some ⟨.debug, "translation unit parsed",
        [("declarations", .number n.children.length), ("lines", .number t.reader.line)]⟩ →
      Reports event ⟨.matched n, t⟩
  | rejected {found : TokenKind} {line : Nat} {t : State} :
      event.record? = some ⟨.debug, "translation unit rejected",
        [("error", .text (ParseError.unrecognized found line).message)]⟩ →
      Reports event ⟨.fatal (.unrecognized found line), t⟩
  | unsupported {construct : Construct} {line : Nat} {t : State} :
      event.record? = some ⟨.debug, "unsupported construct",
        [("construct", .text construct.describe), ("line", .number line)]⟩ →
      Reports event ⟨.fatal (.unsupported construct line), t⟩
  | nestingTooDeep {rule : Rule} {line : Nat} {t : State} :
      event.record? = some ⟨.debug, "nesting limit reached",
        [("line", .number line), ("production", .text rule.name)]⟩ →
      Reports event ⟨.fatal (.nestingTooDeep line), t⟩

theorem Tells.reports {event : Event} {e : ParseError} (h : event.Tells e) (t : State) :
    event.Reports ⟨.fatal e, t⟩ := by
  cases h with
  | limitReached rule line => exact .nestingTooDeep rfl
  | unsupported construct line => exact .unsupported rfl
  | unitRejected found line => exact .rejected rfl

theorem Tells.endsUnit {event : Event} {e : ParseError} (h : event.Tells e) :
    event.endsUnit = true := by
  cases h <;> rfl

theorem Tells.unique {event : Event} {e e' : ParseError} (h : event.Tells e) (h' : event.Tells e') :
    e = e' := by
  cases h <;> cases h' <;> rfl

end Event

def Adds (P : Event → Prop) (log later : List Event) : Prop :=
  ∃ events, later = events ++ log ∧ ∀ e ∈ events, P e

namespace Adds

variable {P Q : Event → Prop} {l m n : List Event}

theorem refl (log : List Event) : Adds P log log := ⟨[], rfl, by simp⟩

theorem trans (h : Adds P l m) (k : Adds P m n) : Adds P l n := by
  obtain ⟨p, rfl, hp⟩ := h
  obtain ⟨q, rfl, hq⟩ := k
  refine ⟨q ++ p, (List.append_assoc _ _ _).symm, fun e he => ?_⟩
  exact (List.mem_append.mp he).elim (hq e) (hp e)

theorem one {e : Event} (h : P e) (log : List Event) : Adds P log (e :: log) :=
  ⟨[e], rfl, by simpa using h⟩

theorem mono (h : Adds P l m) (hPQ : ∀ e, P e → Q e) : Adds Q l m := by
  obtain ⟨events, rfl, hevents⟩ := h
  exact ⟨events, rfl, fun e he => hPQ e (hevents e he)⟩

end Adds

theorem Event.adds_added (a b : Arena) (log : List Event) :
    Adds (·.isMinor = true) log (Event.added a b ++ log) := by
  refine ⟨_, rfl, ?_⟩
  unfold Event.added
  generalize b.counts.blocks = count
  generalize b.chain.take (count - a.counts.blocks) = blocks
  induction blocks generalizing count with
  | nil => simp [Event.ofBlocks]
  | cons block blocks ih =>
    intro e he
    rcases List.mem_cons.mp he with rfl | he
    · rfl
    · exact ih _ e he

theorem State.adds_internToken (s : State) (token : Token) :
    Adds (·.isMinor = true) s.log (s.internToken token).2.log := by
  unfold State.internToken
  split
  · exact .refl _
  · exact Event.adds_added _ _ _

theorem State.Steps.adds {s t : State} (h : s.Steps t) : Adds (·.isMinor = true) s.log t.log := by
  induction h with
  | refl s => exact .refl _
  | trans _ _ ih ih' => exact ih.trans ih'
  | skip s => exact .refl _
  | duplicate s found line => exact .one (P := fun e => e.isMinor = true) rfl _
  | reserve s => exact Event.adds_added _ _ _
  | leaf s => exact (s.skip.adds_internToken s.reader.next).trans (Event.adds_added _ _ _)

/-- What the result of a parser means for the log that there was before: unless the parse is given
up, nothing ends it; and if it is, then the last event, and no other, tells why. -/
def Result.Notes {α : Type} (tried : Rule → Prop) (log : List Event) : Result α → Prop
  | ⟨.fatal e, t⟩ => ∃ event before, t.log = event :: before ∧ event.Tells e ∧
      Adds (Event.IsQuiet tried) log before
  | ⟨_, t⟩ => Adds (Event.IsQuiet tried) log t.log

theorem Result.Notes.behind {α : Type} {tried : Rule → Prop} {log later : List Event} {r : Result α}
    (h : r.Notes tried later) (hlog : Adds (Event.IsQuiet tried) log later) : r.Notes tried log := by
  rcases r with ⟨a | _ | e, t⟩
  · exact hlog.trans h
  · exact hlog.trans h
  · obtain ⟨event, before, ht, hevent, hbefore⟩ := h
    exact ⟨event, before, ht, hevent, hlog.trans hbefore⟩

namespace Parser

variable {α β : Type} {limit : Option Nat} {tried : Rule → Prop} {p : Parser α} {s t : State}

theorem Composed.notes (h : Composed limit tried p s) : (p s).Notes tried s.log := by
  induction h with
  | matched h hsteps =>
    rw [h]
    exact hsteps.adds.mono fun _ => Event.isQuiet_of_isMinor
  | mismatch h hsteps =>
    rw [h]
    exact hsteps.adds.mono fun _ => Event.isQuiet_of_isMinor
  | @fatal _ _ s event _ h htells =>
    rw [h]
    exact ⟨event, s.log, rfl, htells, .refl _⟩
  | @bind _ _ p f s _ _ ihp ihf =>
    rw [bind_apply]
    rcases h : p s with ⟨a | _ | e, t⟩ <;> rw [h] at ihp
    · exact (ihf a t h).behind ihp
    · exact ihp
    · exact ihp
  | @orElse _ p q s _ _ ihp ihq =>
    unfold Parser.orElse
    rcases h : p s with ⟨a | _ | e, t⟩ <;> rw [h] at ihp
    · exact ihp
    · exact (ihq t h).behind ihp
    · exact ihp
  | @rule rule p s hrule _ ih =>
    have henter : Adds (Event.IsQuiet tried) s.log (s.enter rule).log :=
      .one (show Event.IsQuiet tried (.entered rule s.depth s.nextLine) from rfl) _
    unfold tryRule
    split
    · exact ⟨_, s.log, rfl, .limitReached rule s.nextLine, .refl _⟩
    · rcases h : p (s.enter rule) with ⟨a | _ | e, t⟩ <;> rw [h] at ih
      · exact henter.trans ih
      · exact (henter.trans ih).trans (.one (e := .backtracked rule s.reader.line) hrule _)
      · exact Result.Notes.behind (r := ⟨.fatal e, t⟩) ih henter
  | as q h _ ih =>
    rw [h]
    exact ih

end Parser

open MiniC.Parser

/-- Behind the log that there was before, the log ends with the event that reports the result, and with
it alone. -/
structure Result.Ends (log : List Event) (r : Result Node) (event : Event) (events : List Event) :
    Prop where
  log_eq : r.final.log = event :: (events ++ log)
  reports : event.Reports r
  tells_iff : ∀ e, event.Tells e ↔ r.outcome = .fatal e
  quiet : ∀ e ∈ events, e.IsQuiet anyRule

theorem translationUnit_ends (limit : Option Nat) (s : State) :
    ∃ event events, (translationUnit limit s).Ends s.log event events := by
  let opened := s.openNode .translationUnit 4
  have hcomposed : Composed limit anyRule (unitItems limit opened.1) opened.2 :=
    IsComposed.composed opened.2
  have hitems := hcomposed.notes.behind
    ((s.steps_openNode .translationUnit 4).adds.mono fun _ => Event.isQuiet_of_isMinor)
  obtain ⟨d, t, hd, h⟩ | ⟨e, t, he, h⟩ := translationUnit_cases limit s
  · rw [show unitItems limit opened.1 opened.2 = _ from hd] at hitems
    obtain ⟨events, hlog, hevents⟩ := hitems
    rw [h]
    refine ⟨_, events, congrArg _ hlog, .parsed (by simp [Event.record?, Draft.close]), ?_, hevents⟩
    exact fun e => iff_of_false (fun htells => by cases htells) (by simp)
  · rw [show unitItems limit opened.1 opened.2 = _ from he] at hitems
    obtain ⟨event, before, hlog, htells, events, rfl, hevents⟩ := hitems
    rw [h]
    refine ⟨event, events, hlog, htells.reports t, fun e' => ⟨fun htells' => ?_, fun he' => ?_⟩, hevents⟩
    · rw [htells.unique htells']
    · obtain rfl := Outcome.fatal.inj he'
      exact htells

/-- What gave up in between, gave up last. -/
theorem Result.Ends.of_suffix {log : List Event} {r : Result Node} {event : Event}
    {events : List Event} (h : r.Ends log event events) {p : Production} {limit : Option Nat}
    {t u : State} {e : ParseError} (hp : p.parser limit t = ⟨.fatal e, u⟩) (hfirst : log <:+ t.log)
    (hlast : u.log <:+ r.final.log) : r.final.log = u.log ∧ r.outcome = .fatal e := by
  have hcomposed : Composed limit anyRule (p.parser limit) t := IsComposed.composed t
  have hnotes := hcomposed.notes
  rw [hp] at hnotes
  obtain ⟨event', before, hu, htells, later, rfl, -⟩ := hnotes
  obtain ⟨between, hbetween⟩ := hfirst
  obtain ⟨behind, hbehind⟩ := hlast
  cases behind with
  | nil =>
    have hlog : r.final.log = u.log := hbehind.symm
    rw [h.log_eq, hu] at hlog
    obtain ⟨rfl, -⟩ := List.cons.inj hlog
    exact ⟨hbehind.symm, (h.tells_iff e).mp htells⟩
  | cons x behind =>
    -- the event of the error would be one of those that report nothing
    rw [h.log_eq, hu, ← hbetween] at hbehind
    obtain ⟨-, hrest⟩ := List.cons.inj hbehind
    have hevents : behind ++ event' :: (later ++ between) = events :=
      List.append_cancel_right (show _ ++ log = events ++ log by simpa using hrest)
    have hquiet := (h.quiet event' (by simp [← hevents])).endsUnit_eq
    rw [htells.endsUnit] at hquiet
    simp at hquiet

/-- The log of a parse ends with the event that reports its outcome, and no other event does. Where
a part of it is that of a production which gave up, this is all of the log. -/
theorem translationUnit_reported (limit : Option Nat) (s : State) :
    ∃ event events, (translationUnit limit s).final.log = event :: (events ++ s.log) ∧
      event.Reports (translationUnit limit s) ∧
      (∀ e ∈ events, ∀ line ∈ e.record?, line.message ∉ Event.outcomeMessages) ∧
      ∀ (p : Production) (t u : State) (e : ParseError), p.parser limit t = ⟨.fatal e, u⟩ →
        s.log <:+ t.log → u.log <:+ (translationUnit limit s).final.log →
        (translationUnit limit s).final.log = u.log ∧
          (translationUnit limit s).outcome = .fatal e := by
  obtain ⟨event, events, h⟩ := translationUnit_ends limit s
  refine ⟨event, events, h.log_eq, h.reports, fun e he line hline hmessage => ?_,
    fun p t u e hp hfirst hlast => h.of_suffix hp hfirst hlast⟩
  have hends := Event.endsUnit_iff.mpr ⟨line, hline, hmessage⟩
  simp [(h.quiet e he).endsUnit_eq] at hends

/-- The keyword of a structure stops the parse in the last alternative at top level. -/
theorem translationUnit_reported_struct :
    let limit := some nestingLimit
    let s : State :=
      .start (Reader.ofTokens [.newline, .plain .kwStruct] .start) (.ofCapacity .packed 4096)
    ∃ t u event events,
      Production.refusedDeclaration.parser limit t = ⟨.fatal (.unsupported .structDecl 2), u⟩ ∧
        s.log <:+ t.log ∧ u.log <:+ (translationUnit limit s).final.log ∧
        (translationUnit limit s).final.log = event :: (events ++ s.log) ∧
        event.Reports (translationUnit limit s) ∧
        (∀ e ∈ events, ∀ line ∈ e.record?, line.message ∉ Event.outcomeMessages) ∧
        (translationUnit limit s).final.log = u.log ∧
        (translationUnit limit s).outcome = .fatal (.unsupported .structDecl 2) := by
  intro limit s
  have tried (p : Production) (v : State) (h : (p.parser limit v).outcome = .mismatch) :
      p.parser limit v = ⟨.mismatch, (p.parser limit v).final⟩ ∧
        (p.parser limit v).final.reader = v.reader :=
    ⟨by rw [← h], Production.reader_of_mismatch h⟩
  let opened := s.openNode .translationUnit 4
  let s₁ := (variableDeclaration limit opened.2).final
  let s₂ := (variableDefinition limit s₁).final
  let s₃ := (functionDeclaration limit s₂).final
  let s₄ := (functionDefinition limit s₃).final
  obtain ⟨h₁, hr₁⟩ : variableDeclaration limit opened.2 = ⟨.mismatch, s₁⟩ ∧
      s₁.reader = opened.2.reader := tried (.ofRule .variableDeclaration) _ rfl
  obtain ⟨h₂, hr₂⟩ : variableDefinition limit s₁ = ⟨.mismatch, s₂⟩ ∧ s₂.reader = s₁.reader :=
    tried (.ofRule .variableDefinition) _ rfl
  obtain ⟨h₃, hr₃⟩ : functionDeclaration limit s₂ = ⟨.mismatch, s₃⟩ ∧ s₃.reader = s₂.reader :=
    tried (.ofRule .functionDeclaration) _ rfl
  obtain ⟨h₄, hr₄⟩ : functionDefinition limit s₃ = ⟨.mismatch, s₄⟩ ∧ s₄.reader = s₃.reader :=
    tried (.ofRule .functionDefinition) _ rfl
  have hreader : s₄.reader = opened.2.reader := hr₄.trans (hr₃.trans (hr₂.trans hr₁))
  obtain ⟨u, hu⟩ : ∃ u, refusedDeclaration s₄ = ⟨.fatal (.unsupported .structDecl 2), u⟩ := by
    have hkind : Construct.ofDeclaration? s₄.nextKind = some .structDecl := by
      rw [State.nextKind, hreader]
      rfl
    have hline : s₄.nextLine = 2 := by
      rw [State.nextLine, hreader]
      rfl
    exact ⟨_, by rw [refusedDeclaration, hkind, ← hline]; rfl⟩
  have htop : topLevel limit opened.2 = ⟨.fatal (.unsupported .structDecl 2), u⟩ :=
    (orElse_of_mismatch h₁).trans <| (orElse_of_mismatch h₂).trans <|
      (orElse_of_mismatch h₃).trans <| (orElse_of_mismatch h₄).trans hu
  have hitems := unitItems_of_fatal opened.1 (show opened.2.nextKind ≠ .eof by decide) htop
  have hunit : translationUnit limit s = ⟨.fatal (.unsupported .structDecl 2), u⟩ :=
    (bind_of_matched rfl).trans (bind_of_fatal hitems)
  have hlast : u.log <:+ (translationUnit limit s).final.log := by simp [hunit]
  obtain ⟨event, events, hlog, hreports, hmessages, hall⟩ := translationUnit_reported limit s
  obtain ⟨hsame, houtcome⟩ := hall .refusedDeclaration s₄ u _ hu List.nil_suffix hlast
  exact ⟨s₄, u, event, events, hu, List.nil_suffix, hlast, hlog, hreports, hmessages, hsame,
    houtcome⟩

end MiniC
