import MiniC.Proofs.Syntax.Canonical

namespace MiniC.Syntax

open Grammar

theorem Written.append {p q : List Sign} {v w : List Token} (hp : Written p v) (hq : Written q w) :
    Written (p ++ q) (v ++ w) := List.rel_append hp hq

theorem written_nil_iff {v : List Token} : Written [] v ↔ v = [] := List.forall₂_nil_left_iff

theorem written_cons_iff {g : Sign} {p : List Sign} {v : List Token} :
    Written (g :: p) v ↔ ∃ t w, v = t :: w ∧ g.Matches t ∧ Written p w := by
  constructor
  · rintro (_ | ⟨hg, hp⟩)
    exact ⟨_, _, rfl, hg, hp⟩
  · rintro ⟨t, w, rfl, hg, hp⟩
    exact .cons hg hp

theorem written_append_iff {p q : List Sign} {v : List Token} :
    Written (p ++ q) v ↔ ∃ a b, v = a ++ b ∧ Written p a ∧ Written q b := by
  constructor
  · intro h
    induction p generalizing v with
    | nil => exact ⟨[], v, rfl, .nil, h⟩
    | cons g p ih =>
      obtain ⟨t, w, rfl, hg, hw⟩ := written_cons_iff.mp h
      obtain ⟨a, b, rfl, ha, hb⟩ := ih hw
      exact ⟨t :: a, b, rfl, .cons hg ha, hb⟩
  · rintro ⟨a, b, rfl, ha, hb⟩
    exact ha.append hb

theorem Sign.Matches.kind_eq {g : Sign} {t : Token} (h : g.Matches t) : t.kind = g.kind := by
  cases g with
  | mark k => exact h
  | leaf l => exact congrArg Leaf.kind h

theorem Written.kinds {p : List Sign} {v : List Token} (h : Written p v) :
    v.map Token.kind = p.map Sign.kind := by
  induction h with
  | nil => rfl
  | cons hg _ ih => simp [hg.kind_eq, ih]

theorem Written.exists_getElem? {p : List Sign} {v : List Token} (h : Written p v) {i : Nat}
    {g : Sign} (hi : p[i]? = some g) : ∃ t, v[i]? = some t ∧ g.Matches t := by
  induction h generalizing i with
  | nil => simp at hi
  | cons hg _ ih =>
    cases i with
    | zero =>
      obtain rfl := Option.some.inj hi
      exact ⟨_, rfl, hg⟩
    | succ i => exact ih hi

/-- Leaves are written by the tokens that they come from. -/
theorem written_leaves_iff {ls : List Leaf} {v : List Token} :
    Written (ls.map .leaf) v ↔ v.map Leaf.ofToken = ls := by
  induction ls generalizing v with
  | nil => simp [written_nil_iff]
  | cons l ls ih =>
    rw [List.map_cons, written_cons_iff]
    constructor
    · rintro ⟨t, w, rfl, hl, hw⟩
      simp [ih.mp hw, show Leaf.ofToken t = l from hl]
    · intro h
      obtain ⟨t, w, rfl, hl, hw⟩ := List.map_eq_cons_iff.mp h
      exact ⟨t, w, rfl, hl, ih.mpr hw⟩

@[simp] theorem map_kind_ofToken (v : List Token) :
    (v.map Leaf.ofToken).map Leaf.kind = v.map Token.kind := by
  simp [Leaf.ofToken, Function.comp_def]

/-- The type that tokens make whose kinds are a type. -/
def TypeName.ofTokens (v : List Token) (h : IsType (v.map Token.kind)) : TypeName :=
  ⟨v.map Leaf.ofToken, by rwa [map_kind_ofToken]⟩

theorem written_ofTokens (v : List Token) (h : IsType (v.map Token.kind)) :
    Written (TypeName.ofTokens v h).print v := written_leaves_iff.mpr rfl

theorem TypeName.ext_leaves {a b : TypeName} (h : a.leaves = b.leaves) : a = b := by
  cases a
  cases b
  simp_all

/-- The tokens of a type tell which one it is. -/
theorem TypeName.eq_ofTokens {ty : TypeName} {v : List Token} (h : Written ty.print v) :
    ∃ hv, ty = TypeName.ofTokens v hv := by
  have hl : v.map Leaf.ofToken = ty.leaves := written_leaves_iff.mp h
  have hk := ty.isType
  rw [← hl, map_kind_ofToken] at hk
  exact ⟨hk, TypeName.ext_leaves hl.symm⟩

/-- The tokens `l` are what the signs stand for, and then `r`. -/
def WrittenUpTo (p : List Sign) (l r : List Token) : Prop := ∃ v, Written p v ∧ l = v ++ r

namespace WrittenUpTo

variable {g : Sign} {p q : List Sign} {l m r r' : List Token} {x : Token}

theorem nil (l : List Token) : WrittenUpTo [] l l := ⟨[], .nil, rfl⟩

theorem cons (hg : g.Matches x) (h : WrittenUpTo p l r) : WrittenUpTo (g :: p) (x :: l) r := by
  obtain ⟨v, hv, rfl⟩ := h
  exact ⟨x :: v, .cons hg hv, rfl⟩

theorem single (hg : g.Matches x) (r : List Token) : WrittenUpTo [g] (x :: r) r := .cons hg (.nil r)

theorem trans (h : WrittenUpTo p l m) (k : WrittenUpTo q m r) : WrittenUpTo (p ++ q) l r := by
  obtain ⟨v, hv, rfl⟩ := h
  obtain ⟨w, hw, rfl⟩ := k
  exact ⟨v ++ w, hv.append hw, (List.append_assoc _ _ _).symm⟩

theorem split (h : WrittenUpTo (p ++ q) l r) : ∃ m, WrittenUpTo p l m ∧ WrittenUpTo q m r := by
  obtain ⟨v, hv, rfl⟩ := h
  obtain ⟨a, b, rfl, ha, hb⟩ := written_append_iff.mp hv
  exact ⟨b ++ r, ⟨a, ha, List.append_assoc _ _ _⟩, b, hb, rfl⟩

theorem uncons (h : WrittenUpTo (g :: p) l r) :
    ∃ x m, l = x :: m ∧ g.Matches x ∧ WrittenUpTo p m r := by
  obtain ⟨v, hv, rfl⟩ := h
  obtain ⟨x, w, rfl, hg, hw⟩ := written_cons_iff.mp hv
  exact ⟨x, w ++ r, rfl, hg, w, hw, rfl⟩

theorem of_cons (h : WrittenUpTo (g :: p) (x :: l) r) : g.Matches x ∧ WrittenUpTo p l r := by
  obtain ⟨y, m, hy, hg, hm⟩ := h.uncons
  obtain ⟨rfl, rfl⟩ := List.cons.inj hy
  exact ⟨hg, hm⟩

theorem eq_of_nil (h : WrittenUpTo [] l r) : l = r := by
  obtain ⟨v, hv, rfl⟩ := h
  rw [written_nil_iff.mp hv, List.nil_append]

theorem exists_cons (h : WrittenUpTo p l (x :: r)) : ∃ y m, l = y :: m := by
  obtain ⟨v, -, rfl⟩ := h
  cases v with
  | nil => exact ⟨x, r, rfl⟩
  | cons y v => exact ⟨y, v ++ x :: r, rfl⟩

theorem kinds (h : WrittenUpTo p l r) :
    l.map Token.kind = p.map Sign.kind ++ r.map Token.kind := by
  obtain ⟨v, hv, rfl⟩ := h
  rw [List.map_append, hv.kinds]

end WrittenUpTo

end MiniC.Syntax
