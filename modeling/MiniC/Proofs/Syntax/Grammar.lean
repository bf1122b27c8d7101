import MiniC.Parse.Construct

namespace MiniC.Grammar

abbrev Word := List TokenKind

/-- Nothing, or one kind with the property. -/
def Optional (property : TokenKind → Bool) (w : Word) : Prop :=
  w = [] ∨ ∃ k, property k = true ∧ w = [k]

/-- `("*"+ qualifier?)?` -/
def IsPointer (w : Word) : Prop :=
  w = [] ∨ ∃ n q, Optional TokenKind.isQualifier q ∧ w = List.replicate (n + 1) .star ++ q

/-- `storage? qualifier? sign? base qualifier? ("*"+ qualifier?)?`, where a qualifier before the
base excludes one directly behind it. -/
inductive IsType : Word → Prop where
  | intro {storage lead sign inner pointer : Word} {base : TokenKind}
      (hstorage : Optional TokenKind.isStorage storage)
      (hlead : Optional TokenKind.isQualifier lead)
      (hsign : Optional TokenKind.isSign sign)
      (hbase : base.isBase = true)
      (hinner : Optional TokenKind.isQualifier inner)
      (hone : lead = [] ∨ inner = [])
      (hpointer : IsPointer pointer) :
      IsType (storage ++ lead ++ sign ++ base :: (inner ++ pointer))

/-- `type identifier` -/
def IsVariable (w : Word) : Prop := ∃ t, IsType t ∧ w = t ++ [.ident]

/-- `("," type identifier)*` -/
inductive AreFurtherParameters : Word → Prop where
  | nil : AreFurtherParameters []
  | cons {v w : Word} : IsVariable v → AreFurtherParameters w →
      AreFurtherParameters (.comma :: (v ++ w))

/-- `(type identifier ("," type identifier)*)?` -/
inductive AreParameters : Word → Prop where
  | none : AreParameters []
  | some {v w : Word} : IsVariable v → AreFurtherParameters w → AreParameters (v ++ w)

/-- `type identifier "(" parameters ")"` -/
def IsSignature (w : Word) : Prop :=
  ∃ v p, IsVariable v ∧ AreParameters p ∧ w = v ++ .lParen :: (p ++ [.rParen])

/-- The kinds of operands and operators: all but those that end or nest an expression and those that
are not read. -/
def IsOperand (k : TokenKind) : Prop :=
  k ∉ [TokenKind.semicolon, .lParen, .rParen, .lBrace, .rBrace, .eof, .newline]

instance (k : TokenKind) : Decidable (IsOperand k) := by unfold IsOperand; infer_instance

/-- `(operand | "(" expression ")")*` -/
inductive IsExpression : Word → Prop where
  | nil : IsExpression []
  | operand {k : TokenKind} {w : Word} : IsOperand k → IsExpression w → IsExpression (k :: w)
  | group {e w : Word} : IsExpression e → IsExpression w →
      IsExpression (.lParen :: (e ++ .rParen :: w))

/-- `P*` -/
def Repeated (P : Word → Prop) (w : Word) : Prop := ∃ ws : List Word, (∀ v ∈ ws, P v) ∧ w = ws.flatten

/-- No keyword of a refused statement comes first. -/
def StartsPlainly (w : Word) : Prop := ∀ k ∈ w.head?, Construct.ofStatement? k = none

/-- `"{" statement* "}" | "return" expression ";" | expression ";"` -/
inductive IsStatement : Word → Prop where
  | compound {ws : List Word} : (∀ v ∈ ws, IsStatement v) →
      IsStatement (.lBrace :: (ws.flatten ++ [.rBrace]))
  | ret {e : Word} : IsExpression e → IsStatement (.kwReturn :: (e ++ [.semicolon]))
  | expression {e : Word} : IsExpression e → StartsPlainly e → IsStatement (e ++ [.semicolon])

/-- What may stand at top level: a declared or a defined variable, a declared or a defined
function. -/
inductive IsItem : Word → Prop where
  | declaration {v : Word} : IsVariable v → IsItem (.kwExtern :: (v ++ [.semicolon]))
  | definition {v : Word} : IsVariable v → IsItem (v ++ [.semicolon])
  | prototype {g : Word} : IsSignature g → IsItem (g ++ [.semicolon])
  | function {g b : Word} : IsSignature g → Repeated IsStatement b →
      IsItem (g ++ .lBrace :: (b ++ [.rBrace]))

/-- The word runs into the keyword of a refused statement where a statement is expected, possibly
behind complete statements and inside of compound ones. -/
inductive Stalls (c : Construct) : Word → Prop where
  | keyword {k : TokenKind} {w : Word} : Construct.ofStatement? k = some c → Stalls c (k :: w)
  | compound {b w : Word} : Repeated IsStatement b → Stalls c w → Stalls c (.lBrace :: (b ++ w))

/-- As `Stalls`, in the body of a function. -/
def StallsInBody (c : Construct) (w : Word) : Prop :=
  ∃ g b v, IsSignature g ∧ Repeated IsStatement b ∧ Stalls c v ∧ w = g ++ .lBrace :: (b ++ v)

theorem IsStatement.exists_head {v : Word} (h : IsStatement v) : ∃ k w, v = k :: w ∧ k ≠ .rBrace := by
  cases h with
  | compound _ => exact ⟨_, _, rfl, by decide⟩
  | ret _ => exact ⟨_, _, rfl, by decide⟩
  | expression he _ =>
    cases he with
    | nil => exact ⟨_, _, rfl, by decide⟩
    | operand hk _ =>
      refine ⟨_, _, rfl, ?_⟩
      rintro rfl
      exact absurd hk (by decide)
    | group _ _ => exact ⟨_, _, rfl, by decide⟩

theorem Stalls.exists_head {c : Construct} {v : Word} (h : Stalls c v) :
    ∃ k w, v = k :: w ∧ k ≠ .rBrace := by
  cases h with
  | keyword hk =>
    refine ⟨_, _, rfl, ?_⟩
    rintro rfl
    exact absurd hk (by simp [Construct.ofStatement?])
  | compound _ _ => exact ⟨_, _, rfl, by decide⟩

theorem Repeated.nil (P : Word → Prop) : Repeated P [] := ⟨[], by simp, rfl⟩

theorem Repeated.cons {P : Word → Prop} {v w : Word} (hv : P v) (hw : Repeated P w) :
    Repeated P (v ++ w) := by
  obtain ⟨ws, hws, rfl⟩ := hw
  exact ⟨v :: ws, by simpa using ⟨hv, hws⟩, rfl⟩

/-- What types are made of. -/
def isTypePart (k : TokenKind) : Bool :=
  k.isStorage || k.isQualifier || k.isSign || k.isBase || k == .star

/-- The sorts of the parts of types exclude each other. -/
theorem sorts_disjoint (k : TokenKind) :
    (k.isQualifier = true → k.isStorage = false) ∧
    (k.isSign = true → k.isStorage = false ∧ k.isQualifier = false) ∧
    (k.isBase = true → k.isStorage = false ∧ k.isQualifier = false ∧ k.isSign = false) := by
  cases k <;> decide

theorem Optional.property_of_mem {property : TokenKind → Bool} {w : Word}
    (h : Optional property w) {k : TokenKind} (hk : k ∈ w) : property k = true := by
  rcases h with rfl | ⟨_, hp, rfl⟩
  · simp at hk
  · rwa [List.mem_singleton.mp hk]

theorem Optional.head_append {property other : TokenKind → Bool} {v w : Word}
    (h : Optional property v) (hp : ∀ k, property k = true → other k = false)
    (hw : ∀ k ∈ w.head?, other k = false) : ∀ k ∈ (v ++ w).head?, other k = false := by
  rcases h with rfl | ⟨k, hk, rfl⟩
  · exact hw
  · intro k' hk'
    obtain rfl : k = k' := by simpa using hk'
    exact hp k hk

theorem IsPointer.isTypePart_of_mem {w : Word} (h : IsPointer w) {k : TokenKind} (hk : k ∈ w) :
    isTypePart k = true := by
  rcases h with rfl | ⟨n, q, hq, rfl⟩
  · simp at hk
  · rcases List.mem_append.mp hk with hk | hk
    · simp [isTypePart, List.eq_of_mem_replicate hk]
    · simp [isTypePart, hq.property_of_mem hk]

theorem IsType.isTypePart_of_mem {w : Word} (h : IsType w) {k : TokenKind} (hk : k ∈ w) :
    isTypePart k = true := by
  obtain ⟨hs, hl, hg, hb, hi, _, hp⟩ := h
  simp only [List.mem_append, List.mem_cons] at hk
  rcases hk with ((hk | hk) | hk) | rfl | hk | hk
  · simp [isTypePart, hs.property_of_mem hk]
  · simp [isTypePart, hl.property_of_mem hk]
  · simp [isTypePart, hg.property_of_mem hk]
  · simp [isTypePart, hb]
  · simp [isTypePart, hi.property_of_mem hk]
  · exact hp.isTypePart_of_mem hk

theorem IsType.ne_nil {w : Word} (h : IsType w) : w ≠ [] := by
  obtain ⟨⟩ := h
  simp

theorem isOperand_of_isTypePart {k : TokenKind} (h : isTypePart k = true) : IsOperand k := by
  revert h
  cases k <;> decide

theorem plain_of_isTypePart {k : TokenKind} (h : isTypePart k = true) :
    k ≠ .kwReturn ∧ Construct.ofStatement? k = none := by
  revert h
  cases k <;> decide

theorem ofDeclaration?_of_isTypePart {k : TokenKind} (h : isTypePart k = true) :
    Construct.ofDeclaration? k = none := by
  revert h
  cases k <;> decide

theorem plain_of_ofStatement? {k : TokenKind} (h : (Construct.ofStatement? k).isSome) :
    k ≠ .eof ∧ isTypePart k = false ∧ Construct.ofDeclaration? k = none := by
  revert h
  cases k <;> decide

theorem Stalls.head_not_typePart {c : Construct} {k : TokenKind} {w : Word}
    (h : Stalls c (k :: w)) : isTypePart k = false := by
  cases h with
  | keyword hk =>
    rw [← Bool.not_eq_true]
    intro hp
    simp [(plain_of_isTypePart hp).2] at hk
  | compound _ _ => rfl

theorem isExpression_of_operands {w : Word} (h : ∀ k ∈ w, IsOperand k) : IsExpression w := by
  induction w with
  | nil => exact .nil
  | cons k w ih => exact .operand (h k (by simp)) (ih fun k' hk => h k' (by simp [hk]))

/-- A type behind an `extern` is a type. -/
theorem IsType.of_cons_extern {w : Word} (h : IsType (.kwExtern :: w)) : IsType w := by
  generalize hv : TokenKind.kwExtern :: w = v at h
  obtain ⟨hs, hl, hg, hb, hi, hone, hp⟩ := h
  rcases hs with rfl | ⟨k, _, rfl⟩
  · exfalso
    rcases hl with rfl | ⟨q, hq, rfl⟩
    · rcases hg with rfl | ⟨g, hg, rfl⟩
      · obtain ⟨rfl, _⟩ := List.cons.inj hv
        exact absurd hb (by decide)
      · obtain ⟨rfl, _⟩ := List.cons.inj hv
        exact absurd hg (by decide)
    · obtain ⟨rfl, _⟩ := List.cons.inj hv
      exact absurd hq (by decide)
  · obtain ⟨_, rfl⟩ := List.cons.inj hv
    exact .intro (.inl rfl) hl hg hb hi hone hp

theorem tail_unique {k : TokenKind} {u u' r r' : Word} (hu : k ∉ u) (hu' : k ∉ u')
    (h : u ++ k :: r = u' ++ k :: r') : r = r' := by
  have tail {c r r' : Word} (hc : k ∉ c) (h : k :: r = c ++ k :: r') : r = r' := by
    cases c with
    | nil => exact (List.cons.inj h).2
    | cons k' c => exact absurd (List.mem_cons.mpr (.inl (List.cons.inj h).1)) hc
  rcases List.append_eq_append_iff.mp h with ⟨c, rfl, hc⟩ | ⟨c, rfl, hc⟩
  · exact tail (fun hm => hu' (List.mem_append_right _ hm)) hc
  · exact (tail (fun hm => hu (List.mem_append_right _ hm)) hc).symm

/-- Parts of a type and an identifier behind them. -/
def IsHead (w : Word) : Prop := ∃ t, (∀ k ∈ t, isTypePart k = true) ∧ w = t ++ [.ident]

theorem IsVariable.isHead {w : Word} (h : IsVariable w) : IsHead w := by
  obtain ⟨t, ht, rfl⟩ := h
  exact ⟨t, fun k hk => ht.isTypePart_of_mem hk, rfl⟩

theorem IsHead.cons_extern {w : Word} (h : IsHead w) : IsHead (.kwExtern :: w) := by
  obtain ⟨t, ht, rfl⟩ := h
  exact ⟨.kwExtern :: t, by simpa using ⟨rfl, ht⟩, rfl⟩

theorem IsHead.rest_unique {v v' r r' : Word} (hv : IsHead v) (hv' : IsHead v')
    (h : v ++ r = v' ++ r') : r = r' := by
  obtain ⟨t, ht, rfl⟩ := hv
  obtain ⟨t', ht', rfl⟩ := hv'
  have not_ident {t : Word} (ht : ∀ k ∈ t, isTypePart k = true) : TokenKind.ident ∉ t :=
    fun hm => absurd (ht _ hm) (by decide)
  exact tail_unique (not_ident ht) (not_ident ht') (by simpa using h)

theorem IsVariable.mem {w : Word} (h : IsVariable w) {k : TokenKind} (hk : k ∈ w) :
    isTypePart k = true ∨ k = .ident := by
  obtain ⟨t, ht, rfl⟩ := h
  rcases List.mem_append.mp hk with hk | hk
  · exact .inl (ht.isTypePart_of_mem hk)
  · exact .inr (List.mem_singleton.mp hk)

theorem AreFurtherParameters.mem {w : Word} (h : AreFurtherParameters w) {k : TokenKind}
    (hk : k ∈ w) : isTypePart k = true ∨ k = .ident ∨ k = .comma := by
  induction h with
  | nil => simp at hk
  | cons hv _ ih =>
    rcases List.mem_cons.mp hk with hk | hk
    · exact .inr (.inr hk)
    · rcases List.mem_append.mp hk with hk | hk
      · exact (hv.mem hk).imp id .inl
      · exact ih hk

theorem AreParameters.mem {w : Word} (h : AreParameters w) {k : TokenKind} (hk : k ∈ w) :
    isTypePart k = true ∨ k = .ident ∨ k = .comma := by
  cases h with
  | none => simp at hk
  | some hv hw =>
    rcases List.mem_append.mp hk with hk | hk
    · exact (hv.mem hk).imp id .inl
    · exact hw.mem hk

theorem AreParameters.rParen_notMem {w : Word} (h : AreParameters w) : TokenKind.rParen ∉ w := by
  intro hk
  exact absurd (h.mem hk) (by decide)

/-- Only one signature can be read from a word. -/
theorem IsSignature.rest_unique {g g' r r' : Word} (hg : IsSignature g) (hg' : IsSignature g')
    (h : g ++ r = g' ++ r') : r = r' := by
  obtain ⟨v, p, hv, hp, rfl⟩ := hg
  obtain ⟨v', p', hv', hp', rfl⟩ := hg'
  have hparen := hv.isHead.rest_unique hv'.isHead (by simpa using h)
  exact tail_unique hp.rParen_notMem hp'.rParen_notMem (by simpa using hparen)

theorem IsSignature.exists_head {g : Word} (h : IsSignature g) :
    ∃ v w, IsVariable v ∧ g = v ++ .lParen :: w := by
  obtain ⟨v, p, hv, -, rfl⟩ := h
  exact ⟨v, _, hv, rfl⟩

theorem IsVariable.head_typePart {v : Word} (h : IsVariable v) :
    ∃ k w, v = k :: w ∧ isTypePart k = true := by
  obtain ⟨t, ht, rfl⟩ := h
  cases t with
  | nil => exact absurd rfl ht.ne_nil
  | cons k t => exact ⟨k, _, rfl, ht.isTypePart_of_mem (by simp)⟩

theorem IsSignature.head_typePart {g : Word} (h : IsSignature g) :
    ∃ k w, g = k :: w ∧ isTypePart k = true := by
  obtain ⟨v, w, hv, rfl⟩ := h.exists_head
  obtain ⟨k, u, rfl, hk⟩ := hv.head_typePart
  exact ⟨k, _, rfl, hk⟩

theorem IsItem.head_typePart {w : Word} (h : IsItem w) : ∃ k v, w = k :: v ∧ isTypePart k = true := by
  cases h with
  | declaration _ => exact ⟨_, _, rfl, rfl⟩
  | definition hv =>
    obtain ⟨k, w, rfl, hk⟩ := hv.head_typePart
    exact ⟨k, _, rfl, hk⟩
  | prototype hg =>
    obtain ⟨k, w, rfl, hk⟩ := hg.head_typePart
    exact ⟨k, _, rfl, hk⟩
  | function hg _ =>
    obtain ⟨k, w, rfl, hk⟩ := hg.head_typePart
    exact ⟨k, _, rfl, hk⟩

theorem StallsInBody.head_typePart {c : Construct} {w : Word} (h : StallsInBody c w) :
    ∃ k v, w = k :: v ∧ isTypePart k = true := by
  obtain ⟨g, b, v, hg, -, -, rfl⟩ := h
  obtain ⟨k, w, rfl, hk⟩ := hg.head_typePart
  exact ⟨k, _, rfl, hk⟩

theorem IsVariable.eof_notMem {w : Word} (h : IsVariable w) : TokenKind.eof ∉ w :=
  fun hk => absurd (h.mem hk) (by decide)

theorem IsSignature.eof_notMem {w : Word} (h : IsSignature w) : TokenKind.eof ∉ w := by
  obtain ⟨v, p, hv, hp, rfl⟩ := h
  have hp : TokenKind.eof ∉ p := fun hk => absurd (hp.mem hk) (by decide)
  simp [hv.eof_notMem, hp]

theorem IsExpression.eof_notMem {w : Word} (h : IsExpression w) : TokenKind.eof ∉ w := by
  induction h with
  | nil => simp
  | operand hk _ ih =>
    intro hm
    rcases List.mem_cons.mp hm with rfl | hm
    · exact absurd hk (by decide)
    · exact ih hm
  | group _ _ ihe ihw => simp [ihe, ihw]

theorem IsStatement.eof_notMem {w : Word} (h : IsStatement w) : TokenKind.eof ∉ w := by
  induction h with
  | compound _ ih => simpa using ih
  | ret he => simp [he.eof_notMem]
  | expression he _ => simp [he.eof_notMem]

theorem Repeated.eof_notMem {P : Word → Prop} {w : Word} (h : Repeated P w)
    (hP : ∀ v, P v → TokenKind.eof ∉ v) : TokenKind.eof ∉ w := by
  obtain ⟨ws, hws, rfl⟩ := h
  simpa using fun v hv => hP v (hws v hv)

theorem IsItem.eof_notMem {w : Word} (h : IsItem w) : TokenKind.eof ∉ w := by
  cases h with
  | declaration hv => simp [hv.eof_notMem]
  | definition hv => simp [hv.eof_notMem]
  | prototype hg => simp [hg.eof_notMem]
  | function hg hb => simp [hg.eof_notMem, hb.eof_notMem fun _ hv => hv.eof_notMem]

/-- `u` is the longest of the words with `P` that `w` begins with. -/
structure IsLongestStart (P : Word → Prop) (u w : Word) : Prop where
  holds : P u
  start : u <+: w
  longest : ∀ v, P v → v <+: w → v.length ≤ u.length

end MiniC.Grammar
