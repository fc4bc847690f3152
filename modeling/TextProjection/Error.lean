import TextProjection.Region

/-! What can go wrong, by cause, and the wording of each cause.

A refusal concerns the arguments or the moment of a call. A fault is a
contradiction found in a projection's own bookkeeping; it makes the projection
unusable.
-/

set_option autoImplicit false

namespace TextProjection

inductive Fault where
  | noRightNeighbour (index : Nat)
  | noPair (index : Nat)
  | pairStillDeleted (index : Nat)
  | lengthsDiffer (index fragment segment : Nat)
  | segmentMisplaced (index found expected : Nat)
  | fragmentsOverlap (index : Nat)
  | textLengthDiffers (found covered : Nat)
  | insertionBeyondEnd (offset : Nat)
  | removalBeyondEnd (image : Region)
  | contentBeyondEnd (image : Region)
  | removalTargetVanished
  | fragmentOutsideMaster (fragment : Region) (masterLength : Nat)
  | noExactImage (edit : Region)
  | noOrigin (image : Region)
  | noProjectionEdit
  | unusable
  | other (text : String)
  deriving DecidableEq, Repr

inductive Error where
  | outsideText (region : Region) (documentLength : Nat)
  | notShown (region : Region)
  | runsIntoFragment (region : Region)
  | limitExceeded (limit : Nat)
  | editPending
  | disposed
  | unknownProjection (id : Nat)
  | inconsistent (fault : Fault)
  deriving DecidableEq, Repr

def outsideMessage (region : Region) (documentLength : Nat) : String :=
  s!"invalid range {region.offset}+{region.length} for a document of length {documentLength}"

def Fault.message : Fault → String
  | .noRightNeighbour index => s!"merge of pair {index} without a right neighbor"
  | .noPair index => s!"no pair at index {index}"
  | .pairStillDeleted index => s!"pair {index} is still marked deleted"
  | .lengthsDiffer index fragment segment =>
    s!"pair {index}: fragment length {fragment} != segment length {segment}"
  | .segmentMisplaced index found expected =>
    s!"segment {index} starts at {found} instead of {expected}"
  | .fragmentsOverlap index => s!"fragments {index} and {index + 1} overlap"
  | .textLengthDiffers found covered =>
    s!"projection text has {found} characters, segments cover {covered}"
  | .insertionBeyondEnd offset => s!"insertion point {offset} beyond projection end"
  | .removalBeyondEnd image =>
    s!"removed range {image.offset}..{image.stop} beyond projection end"
  | .contentBeyondEnd image =>
    s!"content change {image.offset}..{image.stop} beyond projection end"
  | .removalTargetVanished => "removal target vanished"
  | .fragmentOutsideMaster fragment masterLength =>
    "fragment outside master: " ++ outsideMessage fragment masterLength
  | .noExactImage edit =>
    s!"master change {edit.offset}+{edit.length} has no exact image after expansion"
  | .noOrigin image => s!"projection range {image.offset}+{image.length} has no master origin"
  | .noProjectionEdit => "self update without a projection edit"
  | .unusable => "projection is unusable after a consistency violation"
  | .other text => text

namespace Error

def message : Error → String
  | .outsideText region documentLength => outsideMessage region documentLength
  | .notShown region =>
    s!"master range {region.offset}+{region.length} is not fully projected"
  | .runsIntoFragment region =>
    s!"master range {region.offset}+{region.length} overlaps an existing fragment"
  | .limitExceeded limit => s!"range addition did not settle within {limit} iterations"
  | .editPending => "a master document change is being delivered"
  | .disposed => "projection document has been disposed"
  | .unknownProjection id => s!"unknown projection ProjectionId({id})"
  | .inconsistent fault => "internal consistency violation: " ++ fault.message

def blamesCaller : Error → Bool
  | .outsideText .. | .notShown _ | .runsIntoFragment _ | .limitExceeded _ => true
  | _ => false

def isFault : Error → Bool
  | .inconsistent _ => true
  | _ => false

end Error

def Region.outside? (region : Region) (size : Nat) : Option Error :=
  if region.Inside size then none else some (.outsideText region size)

theorem Region.outside?_eq_none_iff {region : Region} {size : Nat} :
    region.outside? size = none ↔ region.Inside size := by
  simp [outside?]

/-- What becomes of a state when an operation is carried out on it. A failure does not take back
what was done before it. -/
structure Outcome (σ : Type) where
  state : σ
  error : Option Error
  deriving DecidableEq, Repr

namespace Outcome

variable {σ τ : Type}

def done (state : σ) : Outcome σ := ⟨state, none⟩

def fail (state : σ) (error : Error) : Outcome σ := ⟨state, some error⟩

def andThen (outcome : Outcome σ) (next : σ → Outcome σ) : Outcome σ :=
  match outcome.error with
  | none => next outcome.state
  | some _ => outcome

def map (outcome : Outcome σ) (whole : σ → τ) : Outcome τ := ⟨whole outcome.state, outcome.error⟩

def guarded (objection : Option Error) (state : σ) (next : σ → Outcome σ) : Outcome σ :=
  match objection with
  | none => next state
  | some error => fail state error

@[simp] theorem done_andThen (state : σ) (next : σ → Outcome σ) :
    (done state).andThen next = next state := rfl

@[simp] theorem fail_andThen (state : σ) (error : Error) (next : σ → Outcome σ) :
    (fail state error).andThen next = fail state error := rfl

end Outcome

end TextProjection
