import Mathlib.Algebra.Group.Nat.Defs
import MiniC.Arena.Heap

namespace MiniC

open Heap

/-- What a handle stands for. Raw bytes that were never written are unknown. -/
inductive Contents where
  | raw (bytes : List (Option UInt8))
  | slice (layout : Layout) (elements : List Nat)
  | text (s : String)
  deriving DecidableEq

namespace Contents

def bytes : Contents → List (Option UInt8)
  | raw bytes => bytes
  | slice layout elements =>
    (List.range (elements.length * layout.width)).map fun k =>
      elements[k / layout.width]?.map (rowByte layout.width · k)
  | text s => s.toUTF8.data.toList.map some

/-- What is behind the handles after a command that is not refused. -/
def record (known : List Contents) : Command → List Contents
  | .allocate size _ => known ++ [raw (List.replicate size none)]
  | .allocateSized size => known ++ [raw (List.replicate size none)]
  | .resize handle size _ =>
    match known[handle]? with
    | some old => known ++ [raw ((old.bytes.take size).rightpad size none)]
    | none => known
  | .value layout v => known ++ [slice layout [v]]
  | .slice layout length v => known ++ [slice layout (List.replicate length v)]
  | .lengthen handle length v =>
    match known[handle]? with
    | some (slice layout elements) => known ++ [slice layout (elements.rightpad length v)]
    | _ => known
  | .text s => known ++ [text s]
  | .setElement handle i v =>
    match known[handle]? with
    | some (slice layout elements) => known.set handle (slice layout (elements.set i v))
    | _ => known
  | .setByte handle i b =>
    match known[handle]? with
    | some (raw bytes) => known.set handle (raw (bytes.set i (some b)))
    | _ => known
  | .fill handle first seed =>
    match known[handle]? with
    | some (raw bytes) =>
      known.set handle
        (raw (bytes.mapIdx fun k old => if first ≤ k then some (seed + k).toUInt8 else old))
    | _ => known

/-- What is behind the handles after a history of commands none of which was refused. -/
def ofHistory (cs : List Command) : List Contents := cs.foldl record []

theorem slice_byte_iff {layout : Layout} {elements : List Nat} {k : Nat} {b : UInt8} :
    (slice layout elements).bytes[k]? = some (some b) ↔
      k < elements.length * layout.width ∧
        ∃ v, elements[k / layout.width]? = some v ∧ rowByte layout.width v k = b := by
  simp only [bytes, List.getElem?_map, Option.map_eq_some_iff]
  constructor
  · rintro ⟨i, hi, v, hv, hb⟩
    obtain ⟨hlt, rfl⟩ := List.getElem?_eq_some_iff.mp hi
    rw [List.getElem_range] at hv hb
    exact ⟨by simpa using hlt, v, hv, hb⟩
  · rintro ⟨hlt, v, hv, hb⟩
    exact ⟨k, by simp [hlt], v, hv, hb⟩

theorem length_bytes_slice (layout : Layout) (elements : List Nat) :
    (slice layout elements).bytes.length = elements.length * layout.width := by
  simp [bytes]

theorem length_bytes_text (s : String) : (text s).bytes.length = s.utf8ByteSize := by
  rw [bytes, List.length_map, Array.length_toList]
  rfl

end Contents

namespace Heap

def granted (h : Heap) : List Command → List Command
  | [] => []
  | c :: cs =>
    match h.run c with
    | .ok after => c :: after.granted cs
    | .error _ => h.granted cs

/-- Whoever reads the handle finds the contents: all bytes of raw memory that are known, the elements
of a slice (of each as much as its bytes hold), or the text. -/
def Shows (h : Heap) : Handle → Contents → Prop
  | .raw r, .raw bytes =>
    r.size = bytes.length ∧
      ∀ (k : Nat) (b : UInt8), bytes[k]? = some (some b) → (h.bytes r r.size)[k]? = some b
  | .slice r layout length, .slice layout' elements =>
    layout = layout' ∧ length = elements.length ∧
      h.numbers r layout.width length = elements.map (· % 256 ^ layout.width)
  | .text r, .text s => h.string? r = some s
  | _, _ => False

end Heap

end MiniC
