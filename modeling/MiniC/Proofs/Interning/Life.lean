import MiniC.Proofs.Interning.Shelf
import MiniC.Proofs.Runs.Nodes

namespace MiniC

namespace Node

mutual

def texts : Node → List StoredText
  | ⟨_, _, text?, _, children⟩ => text?.toList ++ textsAll children

def textsAll : List Node → List StoredText
  | [] => []
  | n :: ns => n.texts ++ textsAll ns

end

theorem textsAll_eq_flatMap (ns : List Node) : textsAll ns = ns.flatMap texts := by
  induction ns with
  | nil => rfl
  | cons n ns ih => rw [textsAll, ih, List.flatMap_cons]

theorem texts_eq (n : Node) : n.texts = n.text?.toList ++ n.children.flatMap texts := by
  rw [← textsAll_eq_flatMap]
  cases n
  rfl

end Node

def Interner.Stores (i : Interner) (x : StoredText) : Prop := ∃ text : String, i.texts[text]? = some x

theorem Interner.Stores.intern {i : Interner} {x : StoredText} (h : i.Stores x) (a : Arena)
    (text : String) : (i.intern a text).2.1.Stores x := by
  obtain ⟨other, hx⟩ := h
  cases hi : i.texts[text]? with
  | some y =>
    rw [intern_of_some hi]
    exact ⟨other, hx⟩
  | none =>
    rw [intern_of_none hi]
    refine ⟨other, ?_⟩
    rw [Std.TreeMap.getElem?_insert, if_neg]
    · exact hx
    · intro heq
      rw [Std.LawfulEqCmp.eq_of_compare heq, hx] at hi
      simp at hi

theorem Interner.stores_intern (i : Interner) (a : Arena) (text : String) :
    (i.intern a text).2.1.Stores (i.intern a text).1 := by
  refine ⟨text, ?_⟩
  cases hi : i.texts[text]? with
  | some y => rw [intern_of_some hi, hi]
  | none => rw [intern_of_none hi, Std.TreeMap.getElem?_insert_self]

theorem Arena.granted_le_reserveAll (a : Arena) (rs : List Request) :
    a.granted ≤ (a.reserveAll rs).granted := by
  induction rs generalizing a with
  | nil => exact Nat.le_refl _
  | cons r rs ih =>
    have hfirst := a.granted_reserve r
    exact Nat.le_trans (by omega) (ih (a.reserve r).2)

namespace State

variable {s t : State} {leaves : List Node} {deposits : List Deposit} {x : StoredText}

namespace Trail

variable {answers : List StoredText}

theorem exact (h : s.Trail leaves deposits t) (hs : s.interner.Exact s.arena.granted answers) :
    t.interner.Exact t.arena.granted (answers ++ leaves.filterMap Node.text?) := by
  induction h generalizing answers with
  | refl s => simpa using hs
  | trans _ _ ih ih' =>
    rw [List.filterMap_append, ← List.append_assoc]
    exact ih' (ih hs)
  | move s => simpa using hs
  | reserve s _ =>
    rw [List.filterMap_nil, List.append_nil]
    exact hs.mono (s.arena.granted_le_reserveAll _)
  | leaf s =>
    obtain ⟨htext, hinterner, harena, -⟩ | ⟨text, htext, hinterner, harena, -⟩ := s.takeLeaf_cases
    · rw [hinterner, harena, Arena.granted_reserve, List.filterMap_cons_none htext,
        List.filterMap_nil, List.append_nil]
      exact hs.mono (Nat.le_succ _)
    · rw [hinterner, harena, Arena.granted_reserve, List.filterMap_cons_some htext,
        List.filterMap_nil]
      exact (hs.intern text).mono (Nat.le_succ _)

theorem stores (h : s.Trail leaves deposits t) (hx : s.interner.Stores x) : t.interner.Stores x := by
  induction h with
  | refl s => exact hx
  | trans _ _ ih ih' => exact ih' (ih hx)
  | move s => exact hx
  | reserve s _ => exact hx
  | leaf s =>
    obtain ⟨-, hinterner, -⟩ | ⟨text, -, hinterner, -⟩ := s.takeLeaf_cases
    · rwa [hinterner]
    · rw [hinterner]
      exact hx.intern s.arena text

/-- A text is put into the arena if it was not stored and is stored now. -/
theorem count_text (h : s.Trail leaves deposits t) (text : String) :
    deposits.count (.text text) + (if s.interner.texts[text]?.isSome then 1 else 0) =
      if t.interner.texts[text]?.isSome then 1 else 0 := by
  induction h with
  | refl s => simp
  | trans _ _ ih ih' =>
    rw [List.count_append]
    omega
  | move s => simp
  | @reserve s requests _ =>
    have hnone : Deposit.text text ∉ requests.map .node := by simp
    rw [List.count_eq_zero.mpr hnone, Nat.zero_add]
    rfl
  | leaf s =>
    obtain ⟨-, hinterner, -, hdeposits⟩ | ⟨other, -, hinterner, -, hdeposits⟩ := s.takeLeaf_cases
    · simp [hinterner, hdeposits]
    · rw [hinterner, hdeposits]
      cases hs : s.interner.texts[other]? with
      | some y => simp [Interner.intern_of_some hs]
      | none =>
        rw [Interner.intern_of_none hs]
        by_cases heq : other = text
        · subst heq
          simp [hs]
        · have hne : compare other text ≠ .eq := fun h => heq (Std.LawfulEqCmp.eq_of_compare h)
          simp [Std.TreeMap.getElem?_insert, hne, heq]

end Trail

end State

theorem State.stores_takeLeaf {s : State} {x : StoredText} (h : s.takeLeaf.1.text? = some x) :
    s.takeLeaf.2.interner.Stores x := by
  obtain ⟨hnone, -⟩ | ⟨text, hsome, hinterner, -⟩ := s.takeLeaf_cases
  · simp [hnone] at h
  · obtain rfl := Option.some.inj (hsome.symm.trans h)
    rw [hinterner]
    exact s.interner.stores_intern s.arena text

/-- All texts in nodes are stored in the end. -/
def NodeInvariant.stored (limit : Option Nat) (last : State) : NodeInvariant where
  limit := limit
  upTo s := ∃ leaves deposits, s.Trail leaves deposits last
  node n := ∀ x ∈ n.texts, last.interner.Stores x
  draft kind d := d.kind = kind ∧ ∀ x ∈ d.close.texts, last.interner.Stores x
  upTo_of_trail := fun h ⟨_, _, hlast⟩ => ⟨_, _, h.trans hlast⟩
  leaf := by
    rintro s ⟨leaves, deposits, hlast⟩ x hx
    have htext : s.takeLeaf.1.text? = some x := by
      rw [Node.texts_eq] at hx
      simpa [State.takeLeaf, Draft.leaf, Draft.close] using hx
    exact hlast.stores (State.stores_takeLeaf htext)
  empty kind line := by
    rw [Node.texts_eq]
    simp [Draft.close, Draft.empty]
  push := by
    rintro kind d n ⟨hkind, hd⟩ hn
    rw [Node.texts_eq] at hd
    rw [Node.texts_eq]
    refine ⟨hkind, fun x hx => ?_⟩
    simp only [Draft.close, Draft.toList_children_push, List.flatMap_append, ← List.append_assoc,
      List.mem_append] at hx hd
    exact hx.elim (hd x) fun hx => hn x (by simpa using hx)
  close h := h.2
  kind_eq h := h.1
  toCast := by
    intro n h _
    rw [Node.texts_eq] at h ⊢
    exact h

namespace Session

/-- The state in which a parser is after so many units. -/
def unitsEnd : Nat → State → State
  | 0, s => s
  | count + 1, s => unitsEnd count (Parser.translationUnit (some nestingLimit) s).final

theorem getLast?_units (count : Nat) (s : State) :
    ((units count s).getLast?.map Result.final).getD s = unitsEnd count s := by
  induction count generalizing s with
  | zero => rfl
  | succ count ih =>
    rw [unitsEnd, ← ih, units, List.getLast?_cons]
    cases (units count _).getLast? <;> rfl

theorem parse_eq (s : Session) (count : Nat) :
    s.parse count = (units count s.parser, s.resume (unitsEnd count s.parser)) := by
  rw [← getLast?_units, parse]
  cases (units count s.parser).getLast? <;> rfl

theorem exists_trail_unitsEnd (count : Nat) (s : State) :
    ∃ leaves deposits, s.Trail leaves deposits (unitsEnd count s) := by
  induction count generalizing s with
  | zero => exact ⟨_, _, .refl s⟩
  | succ count ih =>
    obtain ⟨_, _, hfirst⟩ := Parser.exists_trail_translationUnit (some nestingLimit) s
    obtain ⟨_, _, hrest⟩ := ih (Parser.translationUnit (some nestingLimit) s).final
    exact ⟨_, _, hfirst.trans hrest⟩

theorem stores_of_units {count : Nat} {s : State} {r : Result Node} {n : Node} {x : StoredText}
    (hr : r ∈ units count s) (hn : r.outcome = .matched n) (hx : x ∈ n.texts) :
    (unitsEnd count s).interner.Stores x := by
  induction count generalizing s with
  | zero => simp [units] at hr
  | succ count ih =>
    rcases List.mem_cons.mp hr with rfl | hr
    · let last := unitsEnd (count + 1) s
      have hunit : Parser.translationUnit (some nestingLimit) s =
          ⟨.matched n, (Parser.translationUnit (some nestingLimit) s).final⟩ := by rw [← hn]
      exact NodeInvariant.yields_translationUnit (M := .stored (some nestingLimit) last) s n _ hunit
        (exists_trail_unitsEnd count _) x hx
    · exact ih hr

/-- Leaves with the same text share it, and what was put into the arena includes each of their texts
once, and no other ones. -/
structure Shared (leaves : List Node) (deposits : List Deposit) : Prop where
  serial_eq_iff : ∀ x ∈ leaves.filterMap Node.text?, ∀ y ∈ leaves.filterMap Node.text?,
    x.region.serial = y.region.serial ↔ x.text = y.text
  eq_of_text_eq : ∀ x ∈ leaves.filterMap Node.text?, ∀ y ∈ leaves.filterMap Node.text?,
    x.text = y.text → x = y
  count_text : ∀ text : String, deposits.count (.text text) =
    if text ∈ (leaves.filterMap Node.text?).map StoredText.text then 1 else 0

end Session

/-- Whatever else is asked of the arena, interning is exact, and so it is over the life of a parser,
through failed attempts and errors. -/
theorem interning_exact :
    (∀ (a : Arena) (calls : List Ledger.Call),
      let l := (Ledger.opened a).callAll calls
      l.Exact ∧ (l.shelf.heap.arena.chain.Pairwise Block.Disjoint →
        ∀ p ∈ l.answers, l.shelf.heap.string? p.2.region = some p.1)) ∧
    ∀ (s : Session) (count : Nat),
      let last := Session.unitsEnd count s.parser
      (s.parse count).2 = s.resume last ∧
      (∃ leaves deposits, s.parser.Trail leaves deposits last) ∧
      ∀ leaves deposits, s.parser.Trail leaves deposits last →
        last.arena = s.arena.reserveAll (deposits.map Deposit.request) ∧
        (∀ r ∈ (s.parse count).1, ∀ n, r.outcome = .matched n →
          ∀ x ∈ n.texts, ∃ leaf ∈ leaves, leaf.text? = some x) ∧
        Session.Shared leaves deposits := by
  refine ⟨fun a calls => ⟨Ledger.exact_of_calls a calls, fun hd p hp =>
    Ledger.string_eq_of_calls a calls hd hp⟩, fun s count => ?_⟩
  rw [Session.parse_eq]
  refine ⟨rfl, Session.exists_trail_unitsEnd count s.parser, fun leaves deposits htrail => ?_⟩
  -- exact for all leaves along the trail, those of failed attempts as well
  have hexact := htrail.exact (Interner.exact_empty _)
  rw [List.nil_append] at hexact
  refine ⟨htrail.arena_eq, fun r hr n hn x hx => ?_, fun x hx y hy => hexact.serial_eq_iff hx hy,
    fun x hx y hy => hexact.eq_of_text_eq hx hy, fun text => ?_⟩
  · obtain ⟨text, hstored⟩ := Session.stores_of_units hr hn hx
    exact List.mem_filterMap.mp ((hexact.stored text x).mp hstored).1
  · have hcount := htrail.count_text text
    have hempty : s.parser.interner.texts[text]? = none := rfl
    rw [hempty] at hcount
    simpa only [Option.isSome_none, Bool.false_eq_true, if_false, Nat.add_zero,
      hexact.isSome_iff] using hcount

/-- Texts that do not fit, are empty or come again; and a parser that reads the sample. -/
theorem interning_exact_sample :
    (let l := (Ledger.opened (.ofCapacity .packed 4)).callAll
      [.intern "ab", .intern "longer", .other (.slice (.number 1) 3 7), .intern "",
        .other (.text "ab"), .intern "ab", .intern "§"]
    l.shelf.heap.arena.chain.Pairwise Block.Disjoint ∧
      l.answers.map (fun p => (p.1, p.2.region.serial)) =
        [("ab", 0), ("longer", 1), ("", 3), ("ab", 0), ("§", 5)] ∧
      l.Exact ∧ ∀ p ∈ l.answers, l.shelf.heap.string? p.2.region = some p.1) ∧
    let s := Session.start Syntax.sampleTokens (.ofCapacity .packed 4096)
    ∃ leaves deposits, s.parser.Trail leaves deposits (Session.unitsEnd 2 s.parser) ∧
      (∃ r ∈ (s.parse 2).1, ∃ n, r.outcome = .matched n ∧
        ∀ x ∈ n.texts, ∃ leaf ∈ leaves, leaf.text? = some x) ∧
      Session.Shared leaves deposits := by
  obtain ⟨hcalls, hunits⟩ := interning_exact
  constructor
  · intro l
    obtain ⟨hexact, hstring⟩ := hcalls (.ofCapacity .packed 4) _
    have hd : l.shelf.heap.arena.chain.Pairwise Block.Disjoint := by decide +kernel
    exact ⟨hd, by decide +kernel, hexact, hstring hd⟩
  · intro s
    obtain ⟨-, ⟨leaves, deposits, htrail⟩, hall⟩ := hunits s 2
    obtain ⟨-, htexts, hshared⟩ := hall leaves deposits htrail
    have hw := Syntax.written_sample
    rw [← Syntax.sampleUnit_canonical.programTokens_eq hw] at hw
    obtain ⟨n, hn, -⟩ := Parser.translationUnit_complete Syntax.sampleUnit_canonical (s := s.parser)
      room_nestingLimit (fun i hi => (Syntax.sampleUnit_nestsWithin i hi).fits)
      Interner.faithful_empty hw
    refine ⟨leaves, deposits, htrail, ⟨_, List.mem_cons_self, n, hn, ?_⟩, hshared⟩
    exact htexts _ List.mem_cons_self n hn

end MiniC
