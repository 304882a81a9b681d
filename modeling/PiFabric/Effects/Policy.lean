import PiFabric.Foundation.JsMap
import PiFabric.Foundation.ObjectKeys

/-! The effects that components declare, and the check that two components are independent.
A scope is decided over the full declarations; the summaries only explain a conflict.
-/

namespace PiFabric.Effects

open JsString

inductive ResourceScope
  | unknown
  | exact (names : List JsString)
  deriving DecidableEq

inductive ResourceEffect
  | quiet
  | effect (ordered : Bool) (scope : ResourceScope)

/-- The name of the footprint that may touch anything. -/
def anyResource : JsString := lit "*"

def identityValid (name : JsString) : Bool :=
  !name.isEmpty && name != anyResource

def nameValid (name : JsString) : Bool :=
  !name.isEmpty && (decide (name.length ≤ 256) && name != anyResource)

def covered (names others : List JsString) : Bool :=
  names.all others.contains

def select (accepted : Bool) (candidate : List JsString) : ResourceScope :=
  if accepted then .exact candidate else .unknown

def resourceSource (names : List JsString) : ResourceScope :=
  select (!names.isEmpty && names.all identityValid) names

def quality (candidate : List JsString) : Bool :=
  !candidate.isEmpty && (decide (candidate.length ≤ 64) && candidate.all nameValid)

def accepted (original candidate : List JsString) : Bool :=
  quality candidate && (covered original candidate && covered candidate original)

def resourceNormalize (original : ResourceScope) (candidate : List JsString)
    : ResourceScope :=
  match original with
  | .unknown => .unknown
  | .exact names => select (accepted names candidate) candidate

def overlap : ResourceScope → ResourceScope → Bool
  | .unknown, _ => true
  | .exact _, .unknown => true
  | .exact names, .exact others => names.any others.contains

def resourceConflict (left right : ResourceScope) (leftOrdered rightOrdered : Bool) : Bool :=
  (leftOrdered || rightOrdered) && overlap left right

def pairConflict : ResourceEffect → ResourceEffect → Bool
  | .effect leftOrdered left, .effect rightOrdered right =>
      resourceConflict left right leftOrdered rightOrdered
  | _, _ => false

def resourceGroups (left right : List ResourceEffect) : Bool :=
  left.any fun one => right.any (pairConflict one)

def unknownConflict (leftUnknown leftUnknownOrdered leftOrdered rightUnknown
    rightUnknownOrdered rightOrdered : Bool) : Bool :=
  leftUnknown && (leftUnknownOrdered || rightOrdered)
    || rightUnknown && (rightUnknownOrdered || leftOrdered)

def knownConflict (shared leftOrdered rightOrdered : Bool) : Bool :=
  shared && (leftOrdered || rightOrdered)

/-- A declared value that is no string is encoded like the empty name. -/
def encodeResourceNames (values : List (Option JsString)) : List JsString :=
  values.map (·.getD [])

def decodeResourceScope : ResourceScope → List JsString
  | .unknown => [anyResource]
  | .exact names => names

/-- The members of the Set that the loop of `boundedEffectResources` leaves: it stops at the
first member past 64.
-/
def proposal (seen : List (Option JsString)) : List (Option JsString) → List (Option JsString)
  | [] => seen
  | resource :: rest =>
      let next := if resource ∈ seen then seen else seen ++ [resource]
      if 64 < next.length then next else proposal next rest

/-- `resources` is `none` where it is no array, and so are its elements that are no strings. -/
def boundedEffectResources (resources : Option (List (Option JsString))) : List JsString :=
  let declared := resources.getD []
  decodeResourceScope (resourceNormalize (resourceSource (encodeResourceNames declared))
    (encodeResourceNames (proposal [] declared)))

inductive EffectKind
  | none
  | scoped
  | transactional
  | emission
  deriving DecidableEq

inductive EffectOrdering
  | commutative
  | ordered
  | unknown
  deriving DecidableEq

structure EffectOptions where
  label : Option JsString := .none
  kind : Option EffectKind := .none
  resources : Option (List (Option JsString)) := .none
  ordering : Option EffectOrdering := .none

structure EffectInfo where
  label : JsString
  kind : EffectKind
  resources : List JsString
  ordering : EffectOrdering

def registrationEffect (registration : EffectOptions) : EffectInfo where
  label :=
    let label := ((registration.label.map trim).getD []).take 256
    if label.isEmpty then lit "anonymous" else label
  kind := registration.kind.getD .transactional
  resources := boundedEffectResources registration.resources
  ordering := registration.ordering.getD .unknown

def encodeResourceEffects (effects : List EffectInfo) : List ResourceEffect :=
  effects.map fun effect =>
    if effect.kind = .none then .quiet
    else .effect (decide (effect.ordering ≠ .commutative)) (resourceSource effect.resources)

structure EffectSummary where
  declarations : List ResourceEffect
  hasEffects : Bool
  hasNoncommutative : Bool
  hasUnknown : Bool
  hasUnknownNoncommutative : Bool
  resourceNoncommutative : JsMap JsString Bool

def summarizeResource (noncommutative : Bool) (summary : EffectSummary)
    (resource : JsString) : EffectSummary :=
  if resource = anyResource then
    { summary with
      hasUnknown := true
      hasUnknownNoncommutative := summary.hasUnknownNoncommutative || noncommutative }
  else
    { summary with
      resourceNoncommutative := summary.resourceNoncommutative.set resource
        ((summary.resourceNoncommutative.get? resource).getD false || noncommutative) }

def summarizeEffect (summary : EffectSummary) (effect : EffectInfo) : EffectSummary :=
  if effect.kind = .none then summary
  else
    let noncommutative := decide (effect.ordering ≠ .commutative)
    effect.resources.foldl (summarizeResource noncommutative)
      { summary with
        hasEffects := true
        hasNoncommutative := summary.hasNoncommutative || noncommutative }

def summarizeEffects (effects : List EffectInfo) : EffectSummary :=
  effects.foldl summarizeEffect
    ⟨encodeResourceEffects effects, false, false, false, false, .empty⟩

inductive ConflictReason
  | unknownResource
  | sharedResource
  deriving DecidableEq

/-- The resources that both sides name and one of them does not commute on. -/
def sharedResources (left right : EffectSummary) : List JsString :=
  sorted (left.resourceNoncommutative.keys.filter fun resource =>
    knownConflict (right.resourceNoncommutative.has resource)
      ((left.resourceNoncommutative.get? resource).getD false)
      ((right.resourceNoncommutative.get? resource).getD false))

def effectConflictsBetween (left right : EffectSummary)
    : List (List JsString × ConflictReason) :=
  if resourceGroups left.declarations right.declarations then
    let unknown :=
      if unknownConflict left.hasUnknown left.hasUnknownNoncommutative left.hasNoncommutative
          right.hasUnknown right.hasUnknownNoncommutative right.hasNoncommutative then
        [([anyResource], ConflictReason.unknownResource)]
      else []
    let shared := sharedResources left right
    let conflicts := if shared.isEmpty then unknown else unknown ++ [(shared, .sharedResource)]
    if conflicts.isEmpty then [([anyResource], .unknownResource)] else conflicts
  else []

end PiFabric.Effects
