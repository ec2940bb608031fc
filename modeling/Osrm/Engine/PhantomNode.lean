import Mathlib.Data.Int.Notation

/-!
# Phantom nodes

A phantom node is a point on a road, seen from the two edge-based nodes of the road: the
forward and the reverse segment. What the source writes once for each of the two is one
definition here, with the direction as an argument; `true` is forward.
-/

namespace Osrm

structure SegmentID (V : Type*) where
  id : V
  enabled : Bool
deriving DecidableEq, Repr

/-- `PhantomNode`, as far as the searches use it. -/
structure PhantomNode (V : Type*) where
  forwardSegmentId : SegmentID V
  reverseSegmentId : SegmentID V
  forwardWeight : ℤ
  reverseWeight : ℤ
  forwardWeightOffset : ℤ
  reverseWeightOffset : ℤ
  forwardDuration : ℤ
  reverseDuration : ℤ
  forwardDurationOffset : ℤ
  reverseDurationOffset : ℤ
  validForwardSource : Bool
  validForwardTarget : Bool
  validReverseSource : Bool
  validReverseTarget : Bool
deriving DecidableEq, Repr

structure PhantomCandidatesToTarget (V : Type*) where
  sourcePhantoms : List (PhantomNode V)
  targetPhantom : PhantomNode V

structure PhantomEndpointCandidates (V : Type*) where
  sourcePhantoms : List (PhantomNode V)
  targetPhantoms : List (PhantomNode V)

namespace PhantomNode

variable {V : Type*} (p : PhantomNode V)

def segmentId (dir : Bool) : SegmentID V := if dir then p.forwardSegmentId else p.reverseSegmentId

def weightPlusOffset (dir : Bool) : ℤ :=
  if dir then p.forwardWeightOffset + p.forwardWeight else p.reverseWeightOffset + p.reverseWeight

def isValidSource (dir : Bool) : Bool :=
  (p.segmentId dir).enabled && if dir then p.validForwardSource else p.validReverseSource

def isValidTarget (dir : Bool) : Bool :=
  (p.segmentId dir).enabled && if dir then p.validForwardTarget else p.validReverseTarget

end PhantomNode

end Osrm
