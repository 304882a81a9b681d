import PiFabric.Timeline.Record

/-! Certificates as they are folded from the events and from the head, and the history and state
reports that carry them.
-/

namespace PiFabric.Timeline

open JsString

def verificationTargets (event : Event) : List CertificationTarget :=
  match event.payload with
  | .certified data => data.targets
  | .violated data => data.targets
  | _ => []

def Event.isCertified (event : Event) : Bool :=
  match event.payload with
  | .certified _ => true
  | _ => false

def targets (event : Event) (transitionId : JsString) : Bool :=
  (verificationTargets event).any fun target => target.transitionId = transitionId

/-- `latestTransitionOutcomes`: the last event that certified or violated a transition. -/
def latestOutcome (events : List Event) (transitionId : JsString) : Option Event :=
  events.reverse.find? fun event => targets event transitionId

/-- Whether the latest outcome of a transition, if there is one, is a given certification. -/
def outcomeIs (latest : JsString → Option Event) (transitionId : JsString) (sequence : Nat)
    : Bool :=
  match latest transitionId with
  | none => true
  | some event => event.isCertified && event.sequence = sequence

/-- A text as a certification head names it: by its digest where there is one. -/
def namesText (digest_ : Option JsString) (bounded text : JsString) : Bool :=
  match digest_ with
  | some (unit :: rest) => unit :: rest = digest (.string text)
  | _ => bounded = text

def CertificationHead.isHead (certified : CertificationHead) (head : Head) : Bool :=
  certified.transitionId = head.transitionId
    && namesText certified.labelDigest certified.label head.label
    && namesText certified.toDigest certified.toLabel head.toLabel
    && certified.version = head.version

def toCertificate (event : Event) (currentHead : Option Head)
    (latest : JsString → Option Event) : Option Certificate :=
  match event.payload with
  | .certified data =>
      if data.targets.isEmpty then none
      else
        let current :=
          match data.head, currentHead with
          | some head, some currentHead =>
              data.targets.any (fun target => target.transitionId = currentHead.transitionId)
                && head.isHead currentHead
                && outcomeIs latest currentHead.transitionId event.sequence
          | _, _ => false
        some {
          certificateId := event.id
          sequence := event.sequence
          targets := data.targets
          head := data.head
          evidenceDigest := data.evidenceDigest
          resultDigest := data.resultDigest
          ts := data.ts
          current
          bindingFields := data.bindingFields
        }
  | _ => none

def durableCurrentCertificate (head : Head) (latest : JsString → Option Event)
    : Option Certificate :=
  match head.certificate with
  | none => none
  | some certificate =>
      let target := certificate.targets.find? fun item =>
        item.transitionId = head.transitionId && item.label = head.label
          && item.toLabel = head.toLabel
      match target, certificate.head with
      | some _, some certified =>
          if certified.isHead head && outcomeIs latest head.transitionId certificate.sequence then
            some { certificate with current := true }
          else none
      | _, _ => none

structure HistoryInput where
  label : Option JsString := none
  limit : Option Nat := none
  includeArchived : Bool := false

structure History where
  transitions : List TransitionRecord
  labels : List JsString
  certifications : List Certificate

/-- The committed records of the events, and the head where they do not hold it, in order. -/
def allRecords (events : List Event) (currentHead : Option Head) : List TransitionRecord :=
  let committedIds := committedTransitionIds events
  let records := events.filterMap fun event => toRecord event committedIds
  let missing :=
    match currentHead with
    | some head =>
        if records.any fun record => record.transitionId = head.transitionId then []
        else (toHeadRecord head).toList
    | none => []
  (records ++ missing).insertionSort fun left right => left.sequence ≤ right.sequence

def lastRepresentation (records : List TransitionRecord) : Option Nat :=
  (records.reverse.findIdx? fun record => record.kind = .representation).map
    fun index => records.length - 1 - index

def visibleRecords (includeArchived : Bool) (records : List TransitionRecord)
    : List TransitionRecord :=
  match lastRepresentation records with
  | some index => if includeArchived then records else records.drop index
  | none => records

def archiveBoundaryId (includeArchived : Bool) (records : List TransitionRecord)
    : Option JsString :=
  match lastRepresentation records with
  | some index =>
      if !includeArchived && 0 < index then records[index]?.map (·.transitionId) else none
  | none => none

def allCertifications (events : List Event) (currentHead : Option Head)
    (visible : List TransitionRecord) : List Certificate :=
  let latest := latestOutcome events
  let eventCertifications := ((events.filterMap fun event =>
    toCertificate event currentHead latest).filter fun certificate =>
      certificate.targets.all fun target =>
        visible.any fun record => record.transitionId = target.transitionId).reverse
  match currentHead.bind fun head => durableCurrentCertificate head latest with
  | some durable =>
      durable :: eventCertifications.filter fun certificate =>
        certificate.certificateId ≠ durable.certificateId
  | none => eventCertifications

def latestCertificate (events : List Event) (currentHead : Option Head)
    (certifications : List Certificate) (transitionId : JsString) : Option Certificate :=
  let fromOutcome :=
    match latestOutcome events transitionId with
    | some event =>
        if event.isCertified then
          certifications.reverse.find? fun certificate => certificate.sequence = event.sequence
        else none
    | none => none
  match currentHead with
  | some head =>
      if head.transitionId = transitionId then
        (durableCurrentCertificate head (latestOutcome events)).or fromOutcome
      else fromOutcome
  | none => fromOutcome

def withCertificate (certificate : Option Certificate) (record : TransitionRecord)
    : TransitionRecord :=
  match certificate with
  | some certificate =>
      { record with certificationStatus := some .certified, certificate := some certificate }
  | none => record

def matchesLabel (label : Option JsString) (boundary : Option JsString)
    (record : TransitionRecord) : Bool :=
  match label with
  | some (unit :: rest) =>
      record.label = unit :: rest || record.toLabel = unit :: rest
        || record.fromLabel = some (unit :: rest) && some record.transitionId ≠ boundary
  | _ => true

def labelsOf (boundary : Option JsString) (record : TransitionRecord) : List JsString :=
  (match record.fromLabel with
    | some (unit :: rest) =>
        if some record.transitionId ≠ boundary then [unit :: rest] else []
    | _ => [])
    ++ [record.toLabel, record.label]

def historyOf (input : HistoryInput) (events : List Event) (currentHead : Option Head) : History :=
  let records := allRecords events currentHead
  let visible := visibleRecords input.includeArchived records
  let certifications := allCertifications events currentHead visible
  let boundary := archiveBoundaryId input.includeArchived records
  let filtered := (visible.filter (matchesLabel input.label boundary)).map fun record =>
    withCertificate (latestCertificate events currentHead certifications record.transitionId) record
  let limited :=
    match input.limit with
    | some limit => if 0 < limit then filtered.take limit else filtered
    | none => filtered
  {
    transitions := limited
    labels := (limited.flatMap (labelsOf boundary)).eraseDups
    certifications := certifications.filter fun certificate =>
      certificate.targets.any fun target =>
        limited.any fun record => record.transitionId = target.transitionId
  }

structure Report where
  head : Option Head
  current : Option Certificate
  recent : List Certificate

/-- `get` of the head it read first, and of the history it read then. -/
def reportOf (storedHead : Option Head) (history : History) : Report where
  head := storedHead.map fun stored =>
    let record := history.transitions.find? fun transition =>
      transition.transitionId = stored.transitionId
    match record.bind (·.certificate) with
    | some certificate =>
        { stored with
          certificationStatus := some .certified, certificate := some certificate }
    | none => { stored with certificate := none }
  current := history.certifications.find? (·.current)
  recent := history.certifications.take 20

end PiFabric.Timeline
