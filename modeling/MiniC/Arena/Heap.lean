import MiniC.Arena.StoredText

namespace MiniC

abbrev Memory := Nat → UInt8

/-- Puts `bytes` at the addresses of a region from its byte number `first` on. -/
def Memory.write (m : Memory) (r : Region) (first : Nat) (bytes : Nat → UInt8) : Memory :=
  fun a => if r.address + first ≤ a ∧ a < r.address + r.size then bytes (a - r.address) else m a

def Memory.read (m : Memory) (r : Region) (i : Nat) : UInt8 := m (r.address + i)

/-- The byte number `i` of a row of elements of `width` bytes each that are all `v`, read as a number
whose least byte comes first. -/
def rowByte (width v i : Nat) : UInt8 := (v >>> (8 * (i % width))).toUInt8

def textByte (bytes : ByteArray) (i : Nat) : UInt8 := if h : i < bytes.size then bytes.get i h else 0

inductive Handle where
  /-- Bytes without a meaning. -/
  | raw (region : Region)
  | slice (region : Region) (layout : Layout) (length : Nat)
  | text (region : Region)
  deriving DecidableEq

def Handle.region : Handle → Region
  | .raw region => region
  | .slice region _ _ => region
  | .text region => region

structure Heap where
  arena : Arena
  memory : Memory
  handles : Array Handle

namespace Heap

inductive Command where
  | allocate (size align : Nat)
  | allocateSized (size : Nat)
  /-- Fresh bytes that begin as those behind a handle. -/
  | resize (handle size align : Nat)
  | value (layout : Layout) (v : Nat)
  | slice (layout : Layout) (length v : Nat)
  /-- A longer slice that begins as the one behind a handle and goes on with `v`. -/
  | lengthen (handle length v : Nat)
  | text (s : String)
  | setElement (handle i v : Nat)
  | setByte (handle i : Nat) (b : UInt8)
  /-- Numbers the bytes behind a handle from byte number `first` on, upwards from `seed`. -/
  | fill (handle first seed : Nat)

def empty (arena : Arena) : Heap := ⟨arena, fun _ => 0, #[]⟩

/-- Hands out a region for a request and gives it its first contents and a handle. -/
def grant (h : Heap) (r : Request) (make : Region → Handle)
    (init : Memory → Region → Memory) : Except Fault Heap :=
  (h.arena.allocate r).map fun (region, arena) =>
    ⟨arena, init h.memory region, h.handles.push (make region)⟩

/-- Copies the bytes of `old` that there is room for. -/
def copy (old : Region) (m : Memory) (new : Region) : Memory :=
  m.write { new with size := min old.size new.size } 0 fun i => m.read old i

def row (width v first : Nat) (m : Memory) (r : Region) : Memory :=
  m.write r first (rowByte width v)

/-- Does what a command asks. A refused one changes nothing, and so does one whose handle does not
exist or is of another kind. -/
def run (h : Heap) : Command → Except Fault Heap
  | .allocate size align => h.grant (.bytes size align) .raw fun m _ => m
  | .allocateSized size => h.grant (.sized size) .raw fun m _ => m
  | .resize handle size align =>
    match h.handles[handle]? with
    | some old => h.grant (.bytes size align) .raw (copy old.region)
    | none => .ok h
  | .value layout v =>
    h.grant (.bytes layout.width layout.align) (.slice · layout 1) (row layout.width v 0)
  | .slice layout length v =>
    h.grant (.array length layout.width layout.align) (.slice · layout length) (row layout.width v 0)
  | .lengthen handle length v =>
    match h.handles[handle]? with
    | some (.slice old layout oldLength) =>
      if length < oldLength then .error .shrinking
      else
        h.grant (.array length layout.width layout.align) (.slice · layout length) fun m r =>
          row layout.width v old.size (copy old m r) r
    | _ => .ok h
  | .text s =>
    let bytes := s.toUTF8
    h.grant (.text s) .text fun m r => m.write r 0 (textByte bytes)
  | .setElement handle i v =>
    match h.handles[handle]? with
    | some (.slice r layout length) =>
      if i < length then
        let element := { r with address := r.address + i * layout.width, size := layout.width }
        .ok { h with memory := row layout.width v 0 h.memory element }
      else
        .ok h
    | _ => .ok h
  | .setByte handle i b =>
    match h.handles[handle]? with
    | some (.raw r) =>
      if i < r.size then
        .ok { h with memory := h.memory.write { r with size := i + 1 } i fun _ => b }
      else
        .ok h
    | _ => .ok h
  | .fill handle first seed =>
    match h.handles[handle]? with
    | some (.raw r) => .ok { h with memory := h.memory.write r first fun i => (seed + i).toUInt8 }
    | _ => .ok h

/-- As `run`, but a refused command is passed over. -/
def attempt (h : Heap) (c : Command) : Heap :=
  match h.run c with
  | .ok after => after
  | .error _ => h

def attemptAll (h : Heap) : List Command → Heap
  | [] => h
  | c :: cs => (h.attempt c).attemptAll cs

def bytes (h : Heap) (r : Region) (count : Nat) : List UInt8 :=
  (List.range (min count r.size)).map (h.memory.read r)

def number (h : Heap) (r : Region) (first width : Nat) : Nat :=
  (List.range width).foldr (fun i high => (h.memory.read r (first + i)).toNat + 256 * high) 0

def numbers (h : Heap) (r : Region) (width length : Nat) : List Nat :=
  (List.range length).map fun i => h.number r (i * width) width

def string? (h : Heap) (r : Region) : Option String :=
  String.fromUTF8? ⟨(h.bytes r r.size).toArray⟩

end Heap

end MiniC
