import MiniC.Proofs.Arena.Contents
import MiniC.Proofs.Arena.Granting
import MiniC.Tree.Forest

namespace MiniC

/-- The request has no fault of its own, and the system can be asked for a block that holds it. -/
structure Request.Modest (r : Request) : Prop where
  sound : r.fault? = none
  chainable : Arena.Chainable r

theorem Node.modest_request : Node.request.Modest := ⟨by decide, by decide⟩

theorem Arena.Lawful.allocate_modest {a : Arena} {r : Request} (h : a.Lawful) (hr : r.Modest) :
    a.allocate r = .ok (a.reserve r) := by
  rw [h.allocate_eq hr.sound, if_pos (.inr hr.chainable)]

namespace Stepwise

variable {σ α : Type}

/-- What comes of a call that leaves the state `s` as it is when it faults. -/
def settle (s : σ) : Except Fault σ → EStateM.Result Fault σ Unit
  | .ok after => .ok () after
  | .error fault => .error fault s

def check (r : Request) : EStateM Fault Arena Unit :=
  match r.fault? with
  | some fault => throw fault
  | none => pure ()

def serve? (size align : Nat) : EStateM Fault Arena (Option Region) := do
  match (← get).serve? size align with
  | some (region, after) => set after; return some region
  | none => return none

/-- The system is asked for a block before the active one is retired for it. -/
def addBlock (size align : Nat) : EStateM Fault Arena Unit := do
  if sizeLimit < Arena.freshCapacity size + Arena.freshAlign align then throw .tooLarge
  modify (·.addBlock size align)

def allocate (r : Request) : EStateM Fault Arena Region := do
  check r
  match ← serve? r.size r.align with
  | some region => return region
  | none =>
    addBlock r.size r.align
    match ← serve? r.size r.align with
    | some region => return region
    | none => throw (.misplaced r.size)

def allocateAll : List Request → EStateM Fault Arena Unit
  | [] => pure ()
  | r :: rs => do
    let _ ← allocate r
    allocateAll rs

theorem bind_of_ok {β : Type} {x : EStateM Fault σ α} {f : α → EStateM Fault σ β} {s t : σ} {v : α}
    (h : x s = .ok v t) : (x >>= f) s = f v t := by
  simp only [bind, EStateM.bind, h]

theorem bind_of_error {β : Type} {x : EStateM Fault σ α} {f : α → EStateM Fault σ β} {s t : σ}
    {fault : Fault} (h : x s = .error fault t) : (x >>= f) s = .error fault t := by
  simp only [bind, EStateM.bind, h]

section

variable {a : Arena} {r : Request} {size align : Nat}

theorem check_eq (r : Request) (a : Arena) :
    check r a =
      match r.fault? with
      | some fault => .error fault a
      | none => .ok () a := by
  unfold check
  cases r.fault? <;> rfl

theorem serve?_eq (size align : Nat) (a : Arena) :
    serve? size align a =
      match a.serve? size align with
      | some (region, after) => .ok (some region) after
      | none => .ok none a := by
  simp only [serve?, bind, EStateM.bind, get, getThe, MonadStateOf.get, EStateM.get]
  cases a.serve? size align <;> rfl

theorem addBlock_eq (size align : Nat) (a : Arena) :
    addBlock size align a =
      if sizeLimit < Arena.freshCapacity size + Arena.freshAlign align then .error .tooLarge a
      else .ok () (a.addBlock size align) := by
  unfold addBlock
  split <;> rfl

/-- The block is asked for before anything changes, and the block that is chained serves the request;
so a request that faults has changed nothing. -/
theorem allocate_eq (h : a.Lawful) (r : Request) :
    allocate r a =
      match a.allocate r with
      | .ok (region, after) => .ok region after
      | .error fault => .error fault a := by
  have hcheck := check_eq r a
  have hserve := serve?_eq r.size r.align a
  unfold allocate Arena.allocate
  cases hfault : r.fault? with
  | some fault =>
    rw [hfault] at hcheck
    rw [bind_of_error hcheck]
  | none =>
    rw [hfault] at hcheck
    rw [bind_of_ok hcheck]
    cases hfit : a.serve? r.size r.align with
    | some granted =>
      rw [hfit] at hserve
      rw [bind_of_ok hserve]
      rfl
    | none =>
      rw [hfit] at hserve
      rw [bind_of_ok hserve]
      have hblock := addBlock_eq r.size r.align a
      by_cases hlimit : sizeLimit < Arena.freshCapacity r.size + Arena.freshAlign r.align
      · rw [if_pos hlimit] at hblock
        simp only [bind_of_error hblock, if_pos hlimit]
      · have ha := Arena.isPowerOfTwo_of_fault?_eq_none hfault
        have hfresh : (a.addBlock r.size r.align).serve? r.size r.align = _ :=
          congrArg (Option.map _) (h.fit?_addBlock ha (Nat.le_of_not_lt hlimit))
        have hserve' := serve?_eq r.size r.align (a.addBlock r.size r.align)
        rw [if_neg hlimit] at hblock
        rw [hfresh] at hserve'
        simp only [bind_of_ok hblock, bind_of_ok hserve', if_neg hlimit, hfresh]
        rfl

theorem allocateAll_modest (h : a.Lawful) {rs : List Request} (hrs : ∀ r ∈ rs, r.Modest) :
    allocateAll rs a = .ok () (a.reserveAll rs) ∧ a.allocateAll rs = .ok (a.reserveAll rs) := by
  induction rs generalizing a with
  | nil => exact ⟨rfl, rfl⟩
  | cons r rs ih =>
    have hgranted := h.allocate_modest (hrs r List.mem_cons_self)
    have hfirst := allocate_eq h r
    rw [hgranted] at hfirst
    obtain ⟨hsteps, hrest⟩ :=
      ih (h.allocate hgranted) fun r' hr' => hrs r' (List.mem_cons_of_mem _ hr')
    constructor
    · rw [allocateAll, bind_of_ok hfirst]
      exact hsteps
    · simp only [Arena.allocateAll, hgranted]
      exact hrest

/-- If all but the first of the requests are modest, the first is the only one that can fault, and it
comes before anything is done. -/
theorem allocateAll_eq (h : a.Lawful) {rs : List Request} (hrs : ∀ r ∈ rs.tail, r.Modest) :
    allocateAll rs a = settle a (a.allocateAll rs) := by
  cases rs with
  | nil => rfl
  | cons r rs =>
    have hfirst := allocate_eq h r
    unfold allocateAll Arena.allocateAll
    cases ha : a.allocate r with
    | error fault =>
      rw [ha] at hfirst
      rw [bind_of_error hfirst]
      rfl
    | ok granted =>
      rw [ha] at hfirst
      rw [List.tail_cons] at hrs
      obtain ⟨hsteps, hrest⟩ := allocateAll_modest (h.allocate ha) hrs
      simp only [bind_of_ok hfirst, hsteps, hrest]
      rfl

end

/-- Does something to the arena within a state. -/
def within (arena : σ → Arena) (put : σ → Arena → σ) (p : EStateM Fault Arena α) :
    EStateM Fault σ α := fun s =>
  match p (arena s) with
  | .ok v a => .ok v (put s a)
  | .error fault a => .error fault (put s a)

def inHeap : EStateM Fault Arena α → EStateM Fault Heap α :=
  within Heap.arena fun h a => { h with arena := a }

def inForest : EStateM Fault Arena α → EStateM Fault Forest α :=
  within Forest.arena fun f a => { f with arena := a }

def grant (r : Request) (make : Region → Handle) (init : Memory → Region → Memory) :
    EStateM Fault Heap Unit := do
  let region ← inHeap (allocate r)
  modify fun h =>
    { h with memory := init h.memory region, handles := h.handles.push (make region) }

def run : Heap.Command → EStateM Fault Heap Unit
  | .allocate size align => grant (.bytes size align) .raw fun m _ => m
  | .allocateSized size => grant (.sized size) .raw fun m _ => m
  | .resize handle size align => do
    match (← get).handles[handle]? with
    | some old => grant (.bytes size align) .raw (Heap.copy old.region)
    | none => pure ()
  | .value layout v =>
    grant (.bytes layout.width layout.align) (.slice · layout 1) (Heap.row layout.width v 0)
  | .slice layout length v =>
    grant (.array length layout.width layout.align) (.slice · layout length)
      (Heap.row layout.width v 0)
  | .lengthen handle length v => do
    match (← get).handles[handle]? with
    | some (.slice old layout oldLength) =>
      if length < oldLength then throw .shrinking
      else
        grant (.array length layout.width layout.align) (.slice · layout length) fun m r =>
          Heap.row layout.width v old.size (Heap.copy old m r) r
    | _ => pure ()
  | .text s => grant (.text s) .text fun m r => m.write r 0 (textByte s.toUTF8)
  -- The others only write to memory that is handed out.
  | c => modify (·.attempt c)

/-- All commands one after another, each in the state that the one before it left, fault or not. -/
def runAll (h : Heap) : List Heap.Command → Heap
  | [] => h
  | c :: cs =>
    match run c h with
    | .ok _ after => runAll after cs
    | .error _ after => runAll after cs

/-- A new node takes its array of children before itself. -/
def alloc (kind : NodeKind) (line wanted : Nat) : EStateM Fault Forest Unit := do
  let d := Draft.empty kind line wanted
  inForest (allocateAll d.requests)
  modify fun f => { f with nodes := f.nodes.push d }

/-- A larger array is taken before the child is put into it. -/
def append (parent child : Nat) : EStateM Fault Forest Unit := do
  let f ← get
  match f.nodes[parent]?, f.nodes[child]? with
  | some p, some c =>
    inForest (allocateAll p.growth)
    modify fun f => { f with nodes := f.nodes.setIfInBounds parent (p.push c.close) }
  | _, _ => pure ()

section

variable {h : Heap} {f : Forest}

theorem grant_eq (hl : h.arena.Lawful) (r : Request) (make : Region → Handle)
    (init : Memory → Region → Memory) : grant r make init h = settle h (h.grant r make init) := by
  have hallocate := allocate_eq hl r
  unfold grant Heap.grant
  cases ha : h.arena.allocate r with
  | error fault =>
    rw [ha] at hallocate
    have hregion : inHeap (allocate r) h = .error fault h := by
      simp only [inHeap, within, hallocate]
    rw [bind_of_error hregion]
    rfl
  | ok granted =>
    rw [ha] at hallocate
    have hregion : inHeap (allocate r) h = .ok granted.1 { h with arena := granted.2 } := by
      simp only [inHeap, within, hallocate]
    rw [bind_of_ok hregion]
    rfl

theorem inForest_allocateAll_eq (hl : f.arena.Lawful) {rs : List Request}
    (hrs : ∀ r ∈ rs.tail, r.Modest) :
    inForest (allocateAll rs) f =
      settle f ((f.arena.allocateAll rs).map fun a => { f with arena := a }) := by
  simp only [inForest, within, allocateAll_eq hl hrs]
  cases f.arena.allocateAll rs <;> rfl

theorem get_eq (s : σ) : (get : EStateM Fault σ σ) s = .ok s s := rfl

theorem write_eq {c : Heap.Command} (hc : ¬c.Makes) :
    (modify fun h : Heap => h.attempt c : EStateM Fault Heap Unit) h = settle h (h.run c) := by
  obtain ⟨m, hrun⟩ := h.exists_run_of_not_makes hc
  have hattempt : h.attempt c = { h with memory := m } := by simp only [Heap.attempt, hrun]
  rw [hrun]
  exact congrArg (EStateM.Result.ok ()) hattempt

/-- A command that faults leaves everything as it was, and any other does all of what it does. -/
theorem run_eq (hl : h.arena.Lawful) (c : Heap.Command) : run c h = settle h (h.run c) := by
  cases c with
  | allocate | allocateSized | value | slice | text =>
    simp only [run, Heap.run]
    exact grant_eq hl _ _ _
  | resize handle size align =>
    simp only [run, Heap.run, bind_of_ok (get_eq h)]
    cases h.handles[handle]? with
    | none => rfl
    | some old => exact grant_eq hl _ _ _
  | lengthen handle length v =>
    simp only [run, Heap.run, bind_of_ok (get_eq h)]
    cases h.handles[handle]? with
    | none => rfl
    | some x =>
      cases x with
      | raw old => rfl
      | text old => rfl
      | slice old layout oldLength =>
        by_cases hlt : length < oldLength
        · simp only [if_pos hlt]
          rfl
        · simp only [if_neg hlt]
          exact grant_eq hl _ _ _
  | setElement | setByte | fill => exact write_eq id

theorem runAll_eq (hl : h.arena.Lawful) (cs : List Heap.Command) :
    runAll h cs = h.attemptAll cs := by
  induction cs generalizing h with
  | nil => rfl
  | cons c cs ih =>
    have hrun := run_eq hl c
    have hstep : runAll h (c :: cs) = runAll (h.attempt c) cs := by
      rw [runAll, hrun, Heap.attempt]
      cases h.run c <;> rfl
    rw [hstep]
    exact ih (Heap.lawful_attemptAll hl [c])

/-- Taking the arrays of children is the only thing that can fault, and it comes first. -/
theorem alloc_eq (hl : f.arena.Lawful) (kind : NodeKind) (line wanted : Nat) :
    alloc kind line wanted f = settle f (f.alloc kind line wanted) := by
  have hmodest : ∀ r ∈ (Draft.empty kind line wanted).requests.tail, r.Modest := by
    intro r hr
    unfold Draft.requests at hr
    split at hr
    · simp at hr
    · obtain rfl := List.mem_singleton.mp hr
      exact Node.modest_request
  have harena := inForest_allocateAll_eq hl hmodest
  unfold alloc Forest.alloc Forest.add
  cases ha : f.arena.allocateAll (Draft.empty kind line wanted).requests with
  | error fault =>
    rw [ha] at harena
    rw [bind_of_error harena]
    rfl
  | ok a =>
    rw [ha] at harena
    rw [bind_of_ok harena]
    rfl

theorem append_eq (hl : f.arena.Lawful) (parent child : Nat) :
    append parent child f = settle f (f.append parent child) := by
  simp only [append, Forest.append, bind_of_ok (get_eq f)]
  cases f.nodes[parent]? with
  | none => rfl
  | some p =>
    cases f.nodes[child]? with
    | none => rfl
    | some c =>
      have hmodest : ∀ r ∈ p.growth.tail, r.Modest := by
        intro r hr
        unfold Draft.growth at hr
        split at hr <;> simp at hr
      have harena := inForest_allocateAll_eq hl hmodest
      simp only
      cases ha : f.arena.allocateAll p.growth with
      | error fault =>
        rw [ha] at harena
        rw [bind_of_error harena]
        rfl
      | ok a =>
        rw [ha] at harena
        rw [bind_of_ok harena]
        rfl

end

end Stepwise

end MiniC
