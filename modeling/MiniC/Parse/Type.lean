import MiniC.Parse.Basic

namespace MiniC.Parser

/-- A mismatch, with a note, if there is a qualifier. -/
def noQualifier : Parser Unit := fun s =>
  if s.nextKind.isQualifier then
    ⟨.mismatch, s.record (.duplicateQualifier s.nextKind s.nextLine)⟩
  else
    ⟨.matched (), s⟩

def innerQualifier (qualified : Bool) (ty : Draft) : Parser Draft :=
  if qualified then do
    noQualifier
    return ty
  else
    optionalLeaf TokenKind.isQualifier ty

def stars (ty : Draft) (s : State) : Draft × State :=
  if s.nextKind = .star then
    let pushed := s.addLeaf ty
    stars pushed.1 pushed.2
  else
    (ty, s)
termination_by s.left
decreasing_by next h => exact State.left_addLeaf_lt ty (by simp [h])

def outerQualifier (ty : Draft) : Parser Draft := fun s =>
  if s.nextKind.isQualifier then
    (do let ty ← requiredLeaf TokenKind.isQualifier ty
        noQualifier
        return ty : Parser Draft) s
  else
    ⟨.matched ty, s⟩

/-- `("*"+ qualifier?)?` -/
def pointer (ty : Draft) : Parser Draft := fun s =>
  if s.nextKind = .star then
    (do let ty ← step (stars ty)
        outerQualifier ty : Parser Draft) s
  else
    ⟨.matched ty, s⟩

/-- `storage? qualifier? sign? base qualifier? ("*"+ qualifier?)?`, with a leaf for each token. -/
def typeName (limit : Option Nat) : Parser Node :=
  tryRule limit .type do
    let ty ← openNode .type 4
    let ty ← optionalLeaf TokenKind.isStorage ty
    let kind ← nextKind
    let ty ← optionalLeaf TokenKind.isQualifier ty
    let ty ← optionalLeaf TokenKind.isSign ty
    let ty ← requiredLeaf TokenKind.isBase ty
    let ty ← innerQualifier kind.isQualifier ty
    let ty ← pointer ty
    return ty.close

theorem reads_noQualifier : Reads noQualifier := by
  intro s
  unfold noQualifier
  split <;> exact Nat.le_refl _

theorem reads_innerQualifier (qualified : Bool) (ty : Draft) :
    Reads (innerQualifier qualified ty) := by
  unfold innerQualifier
  split
  · exact reads_noQualifier.andThen fun _ => reads_pure _
  · exact reads_optionalLeaf rfl _

theorem left_stars_le (ty : Draft) (s : State) : (stars ty s).2.left ≤ s.left := by
  fun_induction stars ty s with
  | case1 ty s h pushed ih =>
    exact Nat.le_trans ih (Nat.le_of_lt (State.left_addLeaf_lt ty (by simp [h])))
  | case2 => exact Nat.le_refl _

theorem reads_outerQualifier (ty : Draft) : Reads (outerQualifier ty) := by
  intro s
  unfold outerQualifier
  split
  · exact ((reads_requiredLeaf rfl ty).andThen fun _ =>
      reads_noQualifier.andThen fun _ => reads_pure _) s
  · exact Nat.le_refl _

theorem reads_pointer (ty : Draft) : Reads (pointer ty) := by
  intro s
  unfold pointer
  split
  · exact (Reads.andThen (p := step (stars ty)) (left_stars_le ty) reads_outerQualifier) s
  · exact Nat.le_refl _

theorem consumes_typeName (limit : Option Nat) : Consumes (typeName limit) := by
  refine Consumes.tryRule ?_
  refine (reads_openNode _ _).thenConsumes fun _ => ?_
  refine (reads_optionalLeaf rfl _).thenConsumes fun _ => ?_
  refine reads_nextKind.thenConsumes fun _ => ?_
  refine (reads_optionalLeaf rfl _).thenConsumes fun _ => ?_
  refine (reads_optionalLeaf rfl _).thenConsumes fun _ => ?_
  refine (consumes_requiredLeaf rfl _).andThen fun _ => ?_
  refine (reads_innerQualifier _ _).andThen fun _ => ?_
  exact (reads_pointer _).andThen fun _ => reads_pure _

end MiniC.Parser
