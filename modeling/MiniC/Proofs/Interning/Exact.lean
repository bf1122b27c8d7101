import MiniC.Proofs.Arena.Regions
import MiniC.Proofs.Parsing.Layout

namespace MiniC

theorem Block.padding_one (b : Block) : b.padding 1 = 0 := Nat.and_zero _

namespace Arena

variable {a b : Arena} {r : Request} {x : Region} {text : String}

/-- Regions are numbered in the order in which they are granted. -/
theorem serial_reserve (a : Arena) (r : Request) : (a.reserve r).1.serial = a.granted := by
  rcases reserve_cases a r with ⟨start, stop, -, h⟩ | ⟨-, h⟩ <;> rw [h] <;> rfl

theorem granted_reserve (a : Arena) (r : Request) : (a.reserve r).2.granted = a.granted + 1 := by
  rcases reserve_cases a r with ⟨start, stop, -, h⟩ | ⟨-, h⟩ <;> rw [h] <;> rfl

theorem align_text (text : String) : (Request.text text).align = 1 := rfl

theorem addBlock_cursor (a : Arena) (size align : Nat) :
    (a.addBlock size align).active.cursor = (a.addBlock size align).active.base := rfl

theorem granted_lt_of_allocate (h : a.allocate r = .ok (x, b)) : a.granted < b.granted := by
  obtain ⟨-, c, hc, start, -, htake⟩ := allocate_cases h
  obtain ⟨-, rfl⟩ := Prod.mk.inj htake
  rcases hc with rfl | ⟨-, -, rfl⟩ <;> exact Nat.lt_succ_self _

/-- A text stands right behind what was handed out before or at the start of a block, so that no
bytes are skipped for it. -/
theorem allocated_reserve_text (a : Arena) (text : String) :
    (a.reserve (.text text)).2.counts.allocated = a.counts.allocated + text.utf8ByteSize := by
  rcases reserve_cases a (.text text) with ⟨start, stop, hfit, h⟩ | ⟨-, h⟩
  · obtain ⟨hstart, -, hstop, -⟩ := Block.fit?_eq_some_iff.mp hfit
    have hcursor : start = a.active.cursor := hstart.trans (by rw [align_text, Block.padding_one]; rfl)
    rw [h, hstop, hcursor]
    exact congrArg _ (Nat.add_sub_cancel_left _ _)
  · rw [h]
    exact congrArg _ (Nat.add_sub_cancel_left _ _)

theorem reserve_text_of_allocate (h : a.allocate (.text text) = .ok (x, b)) :
    a.reserve (.text text) = (x, b) := by
  obtain ⟨-, c, hc, start, hfit, htake⟩ := allocate_cases h
  rcases hc with rfl | ⟨hserve, -, rfl⟩
  · rw [htake, reserve, serve?, hfit]
    rfl
  · obtain ⟨hstart, -⟩ := Block.fit?_eq_some_iff.mp hfit
    rw [align_text, Block.padding_one, addBlock_cursor] at hstart
    rw [htake, hstart, reserve, hserve]
    rfl

end Arena

namespace Interner

variable {i : Interner} {a : Arena} {granted granted' : Nat} {answers : List StoredText}
  {text : String} {x y : StoredText}

/-- The interner has answered with these texts, and its arena has granted so many regions. -/
structure Exact (i : Interner) (granted : Nat) (answers : List StoredText) : Prop where
  stored : ∀ (text : String) (x : StoredText), i.texts[text]? = some x ↔ x ∈ answers ∧ x.text = text
  serial_lt : ∀ x ∈ answers, x.region.serial < granted
  apart : ∀ x ∈ answers, ∀ y ∈ answers, x.region.serial = y.region.serial → x.text = y.text

theorem exact_empty (granted : Nat) : empty.Exact granted [] := by
  refine ⟨fun text x => ?_, ?_, ?_⟩ <;> simp [empty]

namespace Exact

theorem mono (h : i.Exact granted answers) (hle : granted ≤ granted') : i.Exact granted' answers :=
  ⟨h.stored, fun x hx => Nat.lt_of_lt_of_le (h.serial_lt x hx) hle, h.apart⟩

theorem faithful (h : i.Exact granted answers) : i.Faithful :=
  fun text x hx => ((h.stored text x).mp hx).2

theorem eq_of_text_eq (h : i.Exact granted answers) (hx : x ∈ answers) (hy : y ∈ answers)
    (htext : x.text = y.text) : x = y := by
  have hstored := (h.stored y.text x).mpr ⟨hx, htext⟩
  rw [(h.stored y.text y).mpr ⟨hy, rfl⟩] at hstored
  exact (Option.some.inj hstored).symm

theorem serial_eq_iff (h : i.Exact granted answers) (hx : x ∈ answers) (hy : y ∈ answers) :
    x.region.serial = y.region.serial ↔ x.text = y.text := by
  refine ⟨h.apart x hx y hy, fun htext => ?_⟩
  rw [h.eq_of_text_eq hx hy htext]

theorem isSome_iff (h : i.Exact granted answers) :
    i.texts[text]?.isSome ↔ text ∈ answers.map StoredText.text := by
  rw [Option.isSome_iff_exists, List.mem_map]
  exact exists_congr fun x => h.stored text x

theorem size_eq (h : i.Exact granted answers) :
    i.size = (answers.map StoredText.text).toFinset.card := by
  have hkeys : i.texts.keys.toFinset = (answers.map StoredText.text).toFinset := by
    ext text
    rw [List.mem_toFinset, List.mem_toFinset, Std.TreeMap.mem_keys,
      Std.TreeMap.mem_iff_isSome_getElem?, h.isSome_iff]
  rw [← hkeys, List.toFinset_card_of_nodup Std.TreeMap.nodup_keys, Std.TreeMap.length_keys]
  rfl

theorem again (h : i.Exact granted answers) (hx : x ∈ answers) :
    i.Exact granted (answers ++ [x]) := by
  have hmem (y : StoredText) : y ∈ answers ++ [x] ↔ y ∈ answers := by
    simpa using fun hy => hy ▸ hx
  constructor
  · simpa only [hmem] using h.stored
  · simpa only [hmem] using h.serial_lt
  · simpa only [hmem] using h.apart

theorem insert (h : i.Exact granted answers) (hnew : i.texts[x.text]? = none)
    (hserial : x.region.serial = granted) :
    Exact ⟨i.texts.insert x.text x⟩ (granted + 1) (answers ++ [x]) := by
  have hne (y : StoredText) (hy : y ∈ answers) : y.text ≠ x.text := by
    intro heq
    rw [(h.stored x.text y).mpr ⟨hy, heq⟩] at hnew
    simp at hnew
  constructor
  · intro text y
    rw [Std.TreeMap.getElem?_insert, List.mem_append, List.mem_singleton]
    split
    · next heq =>
      obtain rfl := Std.LawfulEqCmp.eq_of_compare heq
      rw [Option.some.injEq, eq_comm]
      refine ⟨fun hy => ⟨.inr hy, congrArg _ hy⟩, fun ⟨hy, htext⟩ => ?_⟩
      exact hy.resolve_left fun hold => hne y hold htext
    · next hother =>
      rw [h.stored]
      refine ⟨fun ⟨hy, htext⟩ => ⟨.inl hy, htext⟩, fun ⟨hy, htext⟩ => ⟨hy.resolve_right ?_, htext⟩⟩
      rintro rfl
      exact hother (htext ▸ Std.ReflCmp.compare_self)
  · intro y hy
    rcases List.mem_append.mp hy with hy | hy
    · exact Nat.lt_succ_of_lt (h.serial_lt y hy)
    · rw [List.mem_singleton.mp hy, hserial]
      exact Nat.lt_succ_self granted
  · intro y hy z hz heq
    rcases List.mem_append.mp hy with hy | hy <;> rcases List.mem_append.mp hz with hz | hz
    · exact h.apart y hy z hz heq
    · rw [List.mem_singleton.mp hz, hserial] at heq
      exact absurd heq (Nat.ne_of_lt (h.serial_lt y hy))
    · rw [List.mem_singleton.mp hy, hserial] at heq
      exact absurd heq.symm (Nat.ne_of_lt (h.serial_lt z hz))
    · rw [List.mem_singleton.mp hy, List.mem_singleton.mp hz]

theorem intern (h : i.Exact a.granted answers) (text : String) :
    (i.intern a text).2.1.Exact (i.intern a text).2.2.granted (answers ++ [(i.intern a text).1]) := by
  cases hi : i.texts[text]? with
  | some x =>
    rw [intern_of_some hi]
    exact h.again ((h.stored text x).mp hi).1
  | none =>
    rw [intern_of_none hi]
    simp only [a.granted_reserve]
    exact h.insert (x := (a.store text).1) hi (a.serial_reserve _)

end Exact

end Interner

end MiniC
