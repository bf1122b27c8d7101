import MiniC.Proofs.Parsing.Capacity
import MiniC.Proofs.Parsing.Position
import MiniC.Proofs.Parsing.Production

namespace MiniC

open Syntax Grammar

/-- What is tried at top level. -/
inductive Alternative where
  | variableDeclaration
  | variableDefinition
  | functionDeclaration
  | functionDefinition
  | refusedDeclaration
  deriving DecidableEq

namespace Alternative

open MiniC.Parser

/-- In the order in which they are tried. -/
def all : List Alternative :=
  [variableDeclaration, variableDefinition, functionDeclaration, functionDefinition,
    refusedDeclaration]

theorem mem_all (a : Alternative) : a ∈ all := by
  cases a <;> decide

def production : Alternative → Production
  | variableDeclaration => .ofRule .variableDeclaration
  | variableDefinition => .ofRule .variableDefinition
  | functionDeclaration => .ofRule .functionDeclaration
  | functionDefinition => .ofRule .functionDefinition
  | refusedDeclaration => .refusedDeclaration

def parser (limit : Option Nat) (a : Alternative) : Parser Node := a.production.parser limit

/-- What the kinds ahead are where the alternative does not mismatch. -/
def Opens : Alternative → Word → Prop
  | variableDeclaration, w => ∃ v r, IsVariable v ∧ w = .kwExtern :: (v ++ .semicolon :: r)
  | variableDefinition, w => ∃ v r, IsVariable v ∧ w = v ++ .semicolon :: r
  | functionDeclaration, w => ∃ g r, IsSignature g ∧ w = g ++ .semicolon :: r
  | functionDefinition, w => ∃ g r, IsSignature g ∧ w = g ++ .lBrace :: r
  | refusedDeclaration, w => ∃ k r, (Construct.ofDeclaration? k).isSome ∧ w = k :: r

def forVariable : List Alternative := [variableDeclaration, variableDefinition]

namespace Opens

variable {a b : Alternative} {w : Word}

theorem head_typePart (h : a.Opens w) (ha : a ≠ refusedDeclaration) :
    ∃ k r, w = k :: r ∧ isTypePart k = true := by
  cases a with
  | variableDeclaration =>
    obtain ⟨v, r, -, rfl⟩ := h
    exact ⟨_, _, rfl, rfl⟩
  | variableDefinition =>
    obtain ⟨v, r, hv, rfl⟩ := h
    obtain ⟨k, u, rfl, hk⟩ := hv.head_typePart
    exact ⟨_, _, rfl, hk⟩
  | functionDeclaration =>
    obtain ⟨g, r, hg, rfl⟩ := h
    obtain ⟨k, u, rfl, hk⟩ := hg.head_typePart
    exact ⟨_, _, rfl, hk⟩
  | functionDefinition =>
    obtain ⟨g, r, hg, rfl⟩ := h
    obtain ⟨k, u, rfl, hk⟩ := hg.head_typePart
    exact ⟨_, _, rfl, hk⟩
  | refusedDeclaration => exact absurd rfl ha

theorem head (h : a.Opens w) :
    ∃ k r, w = k :: r ∧ (isTypePart k = true ∨ (Construct.ofDeclaration? k).isSome) := by
  by_cases ha : a = refusedDeclaration
  · subst ha
    obtain ⟨k, r, hk, rfl⟩ := h
    exact ⟨k, r, rfl, .inr hk⟩
  · obtain ⟨k, r, rfl, hk⟩ := h.head_typePart ha
    exact ⟨k, r, rfl, .inl hk⟩

theorem cases_of_ne (h : a.Opens w) (ha : a ≠ refusedDeclaration) :
    (a ∈ forVariable ∧ ∃ v r, IsHead v ∧ w = v ++ .semicolon :: r) ∨
    (a = functionDeclaration ∧ ∃ g r, IsSignature g ∧ w = g ++ .semicolon :: r) ∨
    (a = functionDefinition ∧ ∃ g r, IsSignature g ∧ w = g ++ .lBrace :: r) := by
  cases a with
  | variableDeclaration =>
    obtain ⟨v, r, hv, rfl⟩ := h
    exact .inl ⟨by simp [forVariable], _, r, hv.isHead.cons_extern, rfl⟩
  | variableDefinition =>
    obtain ⟨v, r, hv, rfl⟩ := h
    exact .inl ⟨by simp [forVariable], v, r, hv.isHead, rfl⟩
  | functionDeclaration => exact .inr (.inl ⟨rfl, h⟩)
  | functionDefinition => exact .inr (.inr ⟨rfl, h⟩)
  | refusedDeclaration => exact absurd rfl ha

/-- A word is opened by one alternative, or by the two for variables. -/
theorem eq_or_forVariable (ha : a.Opens w) (hb : b.Opens w) :
    a = b ∨ a ∈ forVariable ∧ b ∈ forVariable := by
  -- A refused declaration begins with no part of a type.
  have refused {c : Alternative} (hr : refusedDeclaration.Opens w) (hc : c.Opens w) :
      c = refusedDeclaration := by
    by_contra hne
    obtain ⟨k, r, rfl, hk⟩ := hc.head_typePart hne
    obtain ⟨k', r', hk', heq⟩ := hr
    obtain ⟨rfl, -⟩ := List.cons.inj heq
    simp [ofDeclaration?_of_isTypePart hk] at hk'
  by_cases har : a = refusedDeclaration
  · subst har
    exact .inl (refused ha hb).symm
  by_cases hbr : b = refusedDeclaration
  · subst hbr
    exact .inl (refused hb ha)
  rcases ha.cases_of_ne har with ⟨hva, v, r, hv, rfl⟩ | ⟨rfl, g, r, hg, rfl⟩ | ⟨rfl, g, r, hg, rfl⟩
  · rcases hb.cases_of_ne hbr with ⟨hvb, -⟩ | ⟨rfl, g, r', hg, h⟩ | ⟨rfl, g, r', hg, h⟩
    · exact .inr ⟨hva, hvb⟩
    · exact absurd h (not_semicolon_of_signature hv hg)
    · exact absurd h (not_semicolon_of_signature hv hg)
  · rcases hb.cases_of_ne hbr with ⟨-, v, r', hv, h⟩ | ⟨rfl, -⟩ | ⟨rfl, g', r', hg', h⟩
    · exact absurd h.symm (not_semicolon_of_signature hv hg)
    · exact .inl rfl
    · exact absurd (hg.rest_unique hg' h) (by simp)
  · rcases hb.cases_of_ne hbr with ⟨-, v, r', hv, h⟩ | ⟨rfl, g', r', hg', h⟩ | ⟨rfl, -⟩
    · exact absurd h.symm (not_semicolon_of_signature hv hg)
    · exact absurd (hg.rest_unique hg' h) (by simp)
    · exact .inl rfl

end Opens

variable {limit : Option Nat} {s t : State}

theorem functionDefinition_opens (hf : s.interner.Faithful) (hroom : Room limit (s.depth + 3))
    (h : (Parser.functionDefinition limit s).outcome ≠ .mismatch) :
    functionDefinition.Opens s.kinds := by
  rcases hr : Parser.functionDefinition limit s with ⟨n | _ | e, t⟩
  · obtain ⟨g, body, -, hw, -⟩ := functionDefinition_sound hf hr
    refine ⟨_, (body.flatMap Local.print ++ [Sign.mark .rBrace]).map Sign.kind ++ t.kinds,
      g.isSignature_kinds, ?_⟩
    rw [State.kinds_of_written hw]
    simp [Item.print, Sign.kind, State.kinds]
  · exact absurd (congrArg Result.outcome hr) h
  · obtain ⟨u, hu, -⟩ := tryRule_eq_fatal (hroom.mono (by omega)) hr
    let s₀ := s.enter .functionDefinition
    have hf₀ : s₀.interner.Faithful := hf
    rcases bind_eq_fatal hu with hu | ⟨line, s₁, h₁, hu⟩
    · simp [nextLine, step] at hu
    obtain ⟨rfl, rfl⟩ := step_eq_matched h₁
    rcases bind_eq_fatal hu with hu | ⟨parts, s₂, h₂, hu⟩
    · exact absurd hu (mild_signature limit s₀ (hroom.mono (by simp [s₀, State.enter])) e u)
    rcases bind_eq_fatal hu with hu | ⟨_, s₃, h₃, -⟩
    · exact absurd hu expect_ne_fatal
    obtain ⟨g, hg, -⟩ := signature_sound (s := s₀) hf₀ h₂
    have hw := (hg.trans (expect_sound (by simp) h₃)).kinds
    refine ⟨_, s₃.kinds, g.isSignature_kinds, ?_⟩
    rw [show s.kinds = _ from hw]
    simp [Sign.kind, State.kinds]

/-- Only functions and refused declarations are ever given up. -/
theorem eq_of_fatal {a : Alternative} {e : ParseError} (hroom : Room limit (s.depth + 3))
    (h : (a.parser limit s).outcome = .fatal e) :
    a = functionDefinition ∨ a = refusedDeclaration := by
  have hfatal : a.parser limit s = ⟨.fatal e, (a.parser limit s).final⟩ := by rw [← h]
  cases a with
  | variableDeclaration =>
    exact absurd hfatal (mild_variableDeclaration limit s (hroom.mono (by omega)) e _)
  | variableDefinition =>
    exact absurd hfatal (mild_variableDefinition limit s (hroom.mono (by omega)) e _)
  | functionDeclaration => exact absurd hfatal (mild_functionDeclaration limit s hroom e _)
  | functionDefinition => exact .inl rfl
  | refusedDeclaration => exact .inr rfl

/-- Where an alternative does not mismatch, the text is one that it opens. -/
theorem opens_of_ne {a : Alternative} (hf : s.interner.Faithful) (hroom : Room limit (s.depth + 3))
    (h : (a.parser limit s).outcome ≠ .mismatch) : a.Opens s.kinds := by
  have hmatched (hne : a ≠ functionDefinition) (hne' : a ≠ refusedDeclaration) :
      ∃ n, a.parser limit s = ⟨.matched n, (a.parser limit s).final⟩ := by
    cases hr : (a.parser limit s).outcome with
    | matched n => exact ⟨n, by rw [← hr]⟩
    | mismatch => exact absurd hr h
    | fatal e => exact absurd (eq_of_fatal hroom hr) (by simp [hne, hne'])
  cases a with
  | variableDeclaration =>
    obtain ⟨n, hn⟩ := hmatched (by simp) (by simp)
    obtain ⟨v, hw, -⟩ := variableDeclaration_sound hf hn
    refine ⟨_, (parser limit variableDeclaration s).final.kinds, v.isVariable_kinds, ?_⟩
    rw [State.kinds_of_written hw]
    simp [Item.print, Sign.kind, State.kinds]
  | variableDefinition =>
    obtain ⟨n, hn⟩ := hmatched (by simp) (by simp)
    obtain ⟨v, hw, -⟩ := variableDefinition_sound hf hn
    refine ⟨_, (parser limit variableDefinition s).final.kinds, v.isVariable_kinds, ?_⟩
    rw [State.kinds_of_written hw]
    simp [Item.print, Sign.kind, State.kinds]
  | functionDeclaration =>
    obtain ⟨n, hn⟩ := hmatched (by simp) (by simp)
    obtain ⟨g, hw, -⟩ := functionDeclaration_sound hf hn
    refine ⟨_, (parser limit functionDeclaration s).final.kinds, g.isSignature_kinds, ?_⟩
    rw [State.kinds_of_written hw]
    simp [Item.print, Sign.kind, State.kinds]
  | functionDefinition => exact functionDefinition_opens hf hroom h
  | refusedDeclaration =>
    cases hc : Construct.ofDeclaration? s.nextKind with
    | none => exact absurd (by simp [parser, production, Production.parser,
        Parser.refusedDeclaration, hc]) h
    | some c =>
      have hne : s.nextKind ≠ .eof := fun he => by simp [he, Construct.ofDeclaration?] at hc
      obtain ⟨x, rest, hx, hk⟩ := State.exists_pending rfl hne
      exact ⟨s.nextKind, rest.map Token.kind, by simp [hc], by rw [State.kinds, hx, ← hk]; rfl⟩

theorem eq_or_forVariable {a b : Alternative} (hf : s.interner.Faithful)
    (hroom : Room limit (s.depth + 3)) (ha : (a.parser limit s).outcome ≠ .mismatch)
    (hb : (b.parser limit s).outcome ≠ .mismatch) :
    a = b ∨ a ∈ forVariable ∧ b ∈ forVariable :=
  (opens_of_ne hf hroom ha).eq_or_forVariable (opens_of_ne hf hroom hb)

end Alternative

namespace Syntax

/-- The definition by the same tokens has the `extern` of the declaration as the first leaf of its
type. -/
theorem Variable.extern_unique {v v' : Variable} {l r r' : List Token}
    (h : WrittenUpTo (Item.declaration v).print l r)
    (h' : WrittenUpTo (Item.definition v').print l r') :
    r = r' ∧ firstKind l = .kwExtern ∧ v'.name = v.name ∧
      ∃ text?, v'.type.leaves = ⟨.kwExtern, text?⟩ :: v.type.leaves := by
  have hkinds := h.kinds
  have hkinds' := h'.kinds
  obtain ⟨a, hw, rfl⟩ := h
  obtain ⟨a', hw', ha⟩ := h'
  have hlength : r.length = r'.length := by
    have hsame : .kwExtern :: v.print.map Sign.kind ++ .semicolon :: r.map Token.kind =
        v'.print.map Sign.kind ++ .semicolon :: r'.map Token.kind := by
      rw [hkinds] at hkinds'
      simpa [Item.print, Sign.kind] using hkinds'
    have hrest := v.isVariable_kinds.isHead.cons_extern.rest_unique v'.isVariable_kinds.isHead hsame
    simpa using congrArg List.length hrest
  obtain ⟨rfl, rfl⟩ := List.append_inj' ha hlength
  obtain ⟨x, w, rfl, hx, hw⟩ := written_cons_iff.mp hw
  obtain ⟨b, c, rfl, hb, hc⟩ := written_append_iff.mp hw
  obtain ⟨b', c', hbc, hb', hc'⟩ := written_append_iff.mp hw'
  have hcc : c.length = c'.length := hc.length_eq.symm.trans hc'.length_eq
  rw [← List.cons_append] at hbc
  obtain ⟨rfl, rfl⟩ := List.append_inj' hbc hcc
  have hleaves (u : Variable) : u.print = (u.type.leaves ++ [u.name]).map .leaf := by
    simp [Variable.print, TypeName.print]
  rw [hleaves, written_leaves_iff] at hb hb'
  rw [List.map_cons, hb, ← List.cons_append] at hb'
  obtain ⟨hty, hname⟩ := List.append_inj' hb' rfl
  have hk : x.kind = .kwExtern := hx
  refine ⟨rfl, hk, (List.cons.inj hname).1.symm, x.identifier?, ?_⟩
  rw [← hty, Leaf.ofToken, hk]

end Syntax

namespace Node

theorem parts_of_variable {n : Node} {kind : NodeKind} {v : Variable}
    (h : n.shape = ⟨kind, none, v.shapes⟩) :
    n.kind = kind ∧ ∃ ty name, n.children = [ty, name] ∧ ty.kind = .type ∧
      ty.children.map shape = v.type.shapes ∧ name.shape = v.name.shape := by
  rw [shape_eq] at h
  obtain ⟨hkind, -, hchildren⟩ := Shape.mk.inj h
  obtain ⟨ty, rest, hty, htys, hrest⟩ := List.map_eq_cons_iff.mp hchildren
  obtain ⟨name, rfl, hname⟩ := List.map_eq_singleton_iff.mp hrest
  rw [shape_eq] at htys
  obtain ⟨htk, -, hleaves⟩ := Shape.mk.inj htys
  exact ⟨hkind, ty, name, hty, htk, hleaves, hname⟩

theorem lines_of_variable {n ty name : Node} {v : Variable} {offset : Nat} {lineOf : Nat → Nat}
    (hc : n.children = [ty, name]) (hl : n.lines = (0 :: behind offset v.firsts).map lineOf) :
    n.line = lineOf 0 ∧ (ty.children ++ [name]).flatMap lines =
      (List.range (v.type.leaves.length + 1)).map fun i => lineOf (offset + i) := by
  rw [lines_eq, hc, List.flatMap_cons, List.flatMap_singleton, lines_eq ty, List.map_cons] at hl
  obtain ⟨hline, hrest⟩ := List.cons.inj hl
  obtain ⟨-, hleaves⟩ := List.cons.inj hrest
  refine ⟨hline, ?_⟩
  rw [List.flatMap_append, List.flatMap_singleton]
  refine hleaves.trans ?_
  simp [TypeName.print, List.range_succ]

theorem regular_of_variable {n ty name : Node} (hr : n.Regular) (hc : n.children = [ty, name]) :
    ∀ m ∈ ty.children ++ [name], m.Regular := by
  obtain ⟨-, hchildren⟩ := hr
  obtain ⟨-, hleaves⟩ := hchildren ty (by simp [hc])
  intro m hm
  rcases List.mem_append.mp hm with hm | hm
  · exact hleaves m hm
  · exact hchildren m (by simp [hc, List.mem_singleton.mp hm])

/-- Up to an `extern`, both are the same: the line, the identifier and the leaves of the type,
behind a leaf for the `extern` in the definition. -/
def SameButExtern (n n' : Node) : Prop :=
  n.kind = .varDecl ∧ n'.kind = .varDef ∧ n.line = n'.line ∧
    ∃ ty name ty' name' first leaves, n.children = [ty, name] ∧ n'.children = [ty', name'] ∧
      ty.kind = .type ∧ ty'.kind = .type ∧ ty'.children = first :: leaves ∧
      first.kind = .token .kwExtern ∧ first.line = n.line ∧ first.children = [] ∧
      List.Forall₂ (Node.Like Eq (SameText True)) ty.children leaves ∧
      name.Like Eq (SameText True) name'

theorem sameButExtern_of_shapes {n n' : Node} {v v' : Variable} {text? : Option String}
    {lineOf : Nat → Nat} (hn : n.shape = (Item.declaration v).shape)
    (hn' : n'.shape = (Item.definition v').shape)
    (hl : n.lines = (Item.declaration v).firsts.map lineOf)
    (hl' : n'.lines = (Item.definition v').firsts.map lineOf) (hr : n.Regular) (hr' : n'.Regular)
    (hname : v'.name = v.name) (htype : v'.type.leaves = ⟨.kwExtern, text?⟩ :: v.type.leaves) :
    n.SameButExtern n' := by
  obtain ⟨hk, ty, name, hc, htk, hts, hns⟩ := parts_of_variable hn
  obtain ⟨hk', ty', name', hc', htk', hts', hns'⟩ := parts_of_variable hn'
  rw [TypeName.shapes, htype] at hts'
  obtain ⟨first, leaves, hty', hfirst, hleaves⟩ := List.map_eq_cons_iff.mp hts'
  rw [shape_eq] at hfirst
  obtain ⟨hfk, -, hfc⟩ := Shape.mk.inj hfirst
  have hfc : first.children = [] := List.map_eq_nil_iff.mp hfc
  -- The lines of the definition are those of the declaration, behind that of the `extern`.
  obtain ⟨hline, hrows⟩ := lines_of_variable hc hl
  have hfirsts' : n'.lines = (0 :: behind 0 v'.firsts).map lineOf := by
    simpa [behind, Item.firsts] using hl'
  obtain ⟨hline', hrows'⟩ := lines_of_variable hc' hfirsts'
  rw [hty', htype, List.length_cons, List.range_succ_eq_map, List.cons_append, List.flatMap_cons,
    lines_eq first, hfc] at hrows'
  obtain ⟨hfline, hrows'⟩ := List.cons.inj hrows'
  have hlines : (ty.children ++ [name]).flatMap lines = (leaves ++ [name']).flatMap lines := by
    rw [hrows]
    refine Eq.trans ?_ hrows'.symm
    simp [Nat.add_comm]
  have hshapes : (ty.children ++ [name]).map shape = (leaves ++ [name']).map shape := by
    rw [List.map_append, List.map_append, hts, hleaves, List.map_singleton, List.map_singleton,
      hns, hns', hname]
    rfl
  have hregular := regular_of_variable hr hc
  have hregular' : ∀ m ∈ leaves ++ [name'], m.Regular :=
    fun m hm => regular_of_variable hr' hc' m (by rw [hty']; exact List.mem_cons_of_mem _ hm)
  have hlike := forall₂_like_of_shape hshapes (List.forall₂_eq_eq_eq ▸ hlines) hregular hregular'
  have hlength : leaves.length = ty.children.length := by
    rw [← List.length_map shape, hleaves, ← List.length_map shape, hts, TypeName.shapes]
  have hfirsts := List.forall₂_take_append _ _ _ hlike
  have hlast := List.forall₂_drop_append _ _ _ hlike
  rw [hlength, List.take_left] at hfirsts
  rw [hlength, List.drop_left] at hlast
  exact ⟨hk, hk', hline.trans hline'.symm, ty, name, ty', name', first, leaves, hc, hc', htk, htk',
    hty', hfk, hfline.trans hline.symm, hfc, hfirsts, (List.forall₂_cons.mp hlast).1⟩

end Node

namespace Alternative

open MiniC.Parser

variable {limit : Option Nat} {s t t' : State} {n n' : Node}

/-- Where both alternatives for variables match, they read the same tokens, behind an `extern`. -/
theorem sameButExtern (hf : s.interner.Faithful)
    (h : Parser.variableDeclaration limit s = ⟨.matched n, t⟩)
    (h' : Parser.variableDefinition limit s = ⟨.matched n', t'⟩) :
    t.reader = t'.reader ∧ s.nextKind = .kwExtern ∧ n.SameButExtern n' := by
  obtain ⟨v, hw, hs, hl⟩ := variableDeclaration_sound hf h
  obtain ⟨v', hw', hs', hl'⟩ := variableDefinition_sound hf h'
  obtain ⟨hp, hfirst, hname, text?, htype⟩ := Variable.extern_unique hw hw'
  have hreaches := ((keeps_variableDeclaration limit).of_eq h).reaches
  have hreaches' := ((keeps_variableDefinition limit).of_eq h').reaches
  refine ⟨hreaches.eq_of_pending_eq hreaches' hp, s.nextKind_eq_firstKind.trans hfirst, ?_⟩
  exact Node.sameButExtern_of_shapes hs hs' hl hl' (regular_of_variableDeclaration h)
    (regular_of_variableDefinition h') hname htype

end Alternative

end MiniC
