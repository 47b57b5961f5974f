import LayeredPlanning.Canonical.JsonText
import LayeredPlanning.Domain.Direction

/-!
# Errors of reconstruction

Three kinds of causes: input that is refused before anything changes, layers that cannot explain a
cut, and reports that have no canonical text.
-/

namespace LayeredPlanning

/-- Why reconstruction, or its set-up, is refused or given up. -/
inductive ReconstructionError where
  /-- A cut has a negative cost component, or costs too much to be represented. -/
  | invalidCut (g h : Int) (detail : String)
  /-- No action leads from the layers to a closed state. -/
  | unjustifiedState (direction : Direction) (cost : Int) (state : String)
  /-- Layers are needed of a direction that recorded none. -/
  | missingLayers (direction : Direction) (cost : Int)
  /-- A plan does not cost what its cut promised. -/
  | costMismatch (expected actual : Int)
  /-- A policy is outside the supported range. -/
  | unsupportedPolicy (detail : String)
  /-- A report has no canonical text. -/
  | canonical (cause : CanonicalError)
deriving DecidableEq

namespace ReconstructionError

/-- The text of the error. -/
def message : ReconstructionError → String
  | invalidCut g h detail =>
    "invalid solution cut (g=" ++ toString g ++ ", h=" ++ toString h ++ "): " ++ detail
  | unjustifiedState direction cost state =>
    direction.name ++ " layers inconsistent: state " ++ state ++ " at cost " ++ toString cost
      ++ " has no justifying action"
  | missingLayers direction cost =>
    direction.name ++ " layers unavailable, needed at cost " ++ toString cost
  | costMismatch expected actual =>
    "reconstructed plan costs " ++ toString actual ++ ", cut promised " ++ toString expected
  | unsupportedPolicy detail => "unsupported policy: " ++ detail
  | canonical cause => cause.message

/-- Whether the error says that layers cannot explain a cut. -/
def isConsistencyViolation : ReconstructionError → Bool
  | unjustifiedState .. | missingLayers .. | costMismatch .. => true
  | invalidCut .. | unsupportedPolicy .. | canonical .. => false

end ReconstructionError

end LayeredPlanning
