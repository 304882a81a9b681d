import PiFabric.Timeline.Transition

/-! `StateStore.verify`: the evidence of the targets is run, and a certified or a violated event
is published for them.
-/

namespace PiFabric.Timeline

open JsString
open Interleaving (Prog)
open Program

def history (input : HistoryInput) : Program History := do
  let events ← read
  let currentHead ← getHead
  pure (historyOf input events currentHead)

def report : Program Report := do
  let storedHead ← getHead
  let history ← history {}
  pure (reportOf storedHead history)

structure VerifyInput where
  labels : Option (List JsString) := none
  includeArchived : Bool := false
  binding : Option (List (JsString × JsString)) := none
  requestedByProgram : Bool := false

def mergeRecords (merged transitions : List TransitionRecord) : List TransitionRecord :=
  transitions.foldl (fun merged transition =>
    if merged.any fun record => record.transitionId = transition.transitionId then
      merged.map fun record =>
        if record.transitionId = transition.transitionId then transition else record
    else merged ++ [transition]) merged

def labelTargets (includeArchived : Bool) : List JsString → List TransitionRecord
    → Program (List TransitionRecord)
  | [], merged => pure merged
  | label :: rest, merged => do
      let found ← history { label := some label, includeArchived }
      labelTargets includeArchived rest (mergeRecords merged found.transitions)

def verifyTargets (input : VerifyInput) (verificationHead : Option Head)
    : Program (List TransitionRecord) :=
  match input.labels, verificationHead with
  | some labels, _ => do
      let merged ← labelTargets input.includeArchived
        (labels.filter fun label => !(trim label).isEmpty) []
      pure (merged.insertionSort fun left right => left.sequence ≤ right.sequence)
  | none, some head => do
      let found ← history { includeArchived := input.includeArchived }
      pure (found.transitions.find? fun record => record.transitionId = head.transitionId).toList
  | none, none => pure []

def evidenceOf (target : TransitionRecord) : List JsString :=
  target.evidence.getD []

def commandsOf (targets : List TransitionRecord) : List (JsString × JsString) :=
  targets.flatMap fun target => (evidenceOf target).map fun command => (target.summary, command)

def runEvidence : List (JsString × JsString) → Program (List VerifyResult)
  | [] => pure []
  | (claim, command) :: rest => do
      let result ← runCommand command
      let others ← runEvidence rest
      pure ({ claim, command, result } :: others)

def evidenceJson (targets : List TransitionRecord) : Json :=
  .array (targets.map fun target => .object [
    (lit "transitionId", .string target.transitionId), (lit "label", .string target.label),
    (lit "to", .string target.toLabel),
    (lit "evidence", .array ((evidenceOf target).map .string))])

def VerifyStatus.text : VerifyStatus → JsString
  | confirmed => lit "confirmed"
  | violated => lit "violated"
  | error => lit "error"

def natJson (value : Nat) : Json :=
  .number (.int value)

def exitCodeJson (exitCode : Option Int) : Json :=
  exitCode.elim .null fun code => .number (.int code)

def boundedMembers (name text : JsString) : List (JsString × Json) :=
  let bounded := truncateUtf8 text reportTextMaxBytes
  [(name, .string bounded.value), (name ++ lit "Digest", .string (digest (.string text)))]
    ++ if 0 < bounded.omittedBytes then
      [(name ++ lit "OmittedBytes", natJson bounded.omittedBytes)] else []

def nonempty (text : Option JsString) : Option JsString :=
  text.filter fun units => !units.isEmpty

def VerifyResult.json (verified : VerifyResult) : Json :=
  let result := verified.result
  .object (boundedMembers (lit "claim") verified.claim
    ++ boundedMembers (lit "command") verified.command
    ++ [(lit "status", .string result.status.text), (lit "exitCode", exitCodeJson result.exitCode),
      (lit "output", .string result.output), (lit "outputBytes", natJson result.outputBytes),
      (lit "outputOmittedBytes", natJson result.outputOmittedBytes),
      (lit "outputDigest", .string result.outputDigest)]
    ++ (nonempty result.error).elim [] (boundedMembers (lit "error")))

inductive VerificationFailure where
  | bindingUnobserved
  | bindingMismatch (bound observed : JsString)
  | missingTarget (labels : Bool)
  | missingEvidence (transitionId label : JsString)
  | unconfirmed (result : VerifyResult)
  | reportingError (cause : Failure)

def boundedText (text : JsString) : JsString :=
  (truncateUtf8 text reportTextMaxBytes).value

def unconfirmedMessage (verified : VerifyResult) : JsString :=
  let command := boundedText verified.command
  match verified.result.status with
  | .violated =>
      lit "Evidence exited nonzero ("
        ++ verified.result.exitCode.elim (lit "unknown") Json.integerToken ++ lit "): " ++ command
  | _ =>
      lit "Evidence could not be confirmed: " ++ command
        ++ (nonempty verified.result.error).elim [] fun error =>
          lit " (" ++ boundedText error ++ lit ")"

def VerificationFailure.json : VerificationFailure → Json
  | bindingUnobserved => .object [(lit "reason", .string (lit "binding-unobserved")),
      (lit "message", .string (lit ("binding.commit cannot be checked: the verification cwd is "
        ++ "not a git work tree with a HEAD commit")))]
  | bindingMismatch bound observed => .object [(lit "reason", .string (lit "binding-mismatch")),
      (lit "message", .string (lit "binding.commit " ++ (truncateUtf8 bound 128).value
        ++ lit " does not match observed HEAD " ++ observed))]
  | missingTarget labels => .object [(lit "reason", .string (lit "missing-target")),
      (lit "message", .string (if labels
        then lit "No active state transitions matched the requested labels"
        else lit "No current state transition is available to verify"))]
  | missingEvidence transitionId label => .object [
      (lit "reason", .string (lit "missing-evidence")),
      (lit "message", .string (lit "Transition \"" ++ label
        ++ lit "\" has no executable evidence")),
      (lit "transitionId", .string transitionId), (lit "label", .string label)]
  | unconfirmed verified => .object ([
      (lit "reason", .string (match verified.result.status with
        | .violated => lit "nonzero-exit"
        | _ => lit "execution-error")),
      (lit "message", .string (unconfirmedMessage verified)),
      (lit "command", .string (boundedText verified.command)),
      (lit "status", .string verified.result.status.text),
      (lit "exitCode", exitCodeJson verified.result.exitCode)]
      ++ (nonempty verified.result.error).elim [] fun error =>
        [(lit "error", .string (boundedText error))])
  | reportingError cause => .object [(lit "reason", .string (lit "reporting-error")),
      (lit "message", .string (lit "Certification could not be recorded: "
        ++ boundedText cause.message)),
      (lit "error", .string (boundedText cause.message))]

/-- `toLowerCase` of ASCII letters; an object name has no others. -/
def toLowerCase (text : JsString) : JsString :=
  text.map fun unit => if 0x41 ≤ unit ∧ unit ≤ 0x5A then unit + 0x20 else unit

def bindingFailures (binding : Option (List (JsString × JsString)))
    (observedCommit : Option JsString) : List VerificationFailure :=
  match (binding.getD []).lookup (lit "commit"), observedCommit with
  | none, _ => []
  | some _, none => [.bindingUnobserved]
  | some bound, some observed =>
      if toLowerCase (trim bound) = observed then [] else [.bindingMismatch bound observed]

def evidenceFailures (targets : List TransitionRecord) : List VerificationFailure :=
  targets.filterMap fun target =>
    if (evidenceOf target).isEmpty then some (.missingEvidence target.transitionId target.label)
    else none

def resultFailures (results : List VerifyResult) : List VerificationFailure :=
  (results.filter fun verified => verified.result.status ≠ .confirmed).map .unconfirmed

def resultJson (results : List VerifyResult) (failures : List VerificationFailure) : Json :=
  .object [(lit "results", .array (results.map (·.json))),
    (lit "failures", .array (failures.map (·.json)))]

def boundedTarget (record : TransitionRecord) : CertificationTarget where
  transitionId := (truncateUtf8 record.transitionId eventTextMaxBytes).value
  label := (truncateUtf8 record.label eventTextMaxBytes).value
  toLabel := (truncateUtf8 record.toLabel eventTextMaxBytes).value

def omitted (text : Truncated) : Option Nat :=
  if 0 < text.omittedBytes then some text.omittedBytes else none

def headIdentity (head : Head) : CertificationHead :=
  let label := truncateUtf8 head.label eventTextMaxBytes
  let toLabel := truncateUtf8 head.toLabel eventTextMaxBytes
  {
    transitionId := head.transitionId
    label := label.value
    labelDigest := some (digest (.string head.label))
    labelOmittedBytes := omitted label
    toLabel := toLabel.value
    toDigest := some (digest (.string head.toLabel))
    toOmittedBytes := omitted toLabel
    version := head.version
  }

def sameHead (head verificationHead : Head) : Bool :=
  head.version = verificationHead.version && head.transitionId = verificationHead.transitionId
    && head.label = verificationHead.label && head.toLabel = verificationHead.toLabel

def persistCurrentCertificate (certificate : Certificate) (verificationHead : Head)
    : Program Certificate := do
  let current ← get .current
  match (current.bind toHead).filter (sameHead · verificationHead), certificate.head with
  | some head, some certified => do
      let durable := { certificate with
        head := some { certified with version := head.version + 1 }, current := true }
      let value := { head.toHeadValue with certificate := some durable }
      match ← attempt (put .current (.head value) head.version) with
      | .ok written =>
          pure (if written.2 = head.version + 1 then durable else { durable with current := false })
      | .error failure =>
          match failure.found? with
          | some _ => pure { certificate with current := false }
          | none => throw failure
  | _, _ => pure { certificate with current := false }

def revokeCurrentCertificate (verificationHead : Head) : Program Unit := do
  let current ← get .current
  match (current.bind toHead).filter (sameHead · verificationHead) with
  | some head =>
      if head.certificate.isSome then
        match ← attempt (put .current (.head { head.toHeadValue with certificate := none })
          head.version) with
        | .ok _ => pure ()
        | .error failure =>
            match failure.found? with
            | some _ => pure ()
            | none => throw failure
      else pure ()
  | none => pure ()

def targetChunks (targets : List TransitionRecord) : List (List CertificationTarget) :=
  chunks eventTargetLimit (targets.map boundedTarget)

structure Verdicts where
  evidence : Evidence
  evidenceDigest : JsString
  bindingFields : BindingFields

def Verdicts.verdict (verdicts : Verdicts) (resultDigest : JsString) (ts : Nat)
    (targets : List CertificationTarget) : Verdict where
  targets
  head := verdicts.evidence.head.map headIdentity
  evidenceDigest := verdicts.evidenceDigest
  resultDigest
  ts
  bindingFields := verdicts.bindingFields

def publishViolation (verdicts : Verdicts) (resultDigest : JsString)
    : List (List CertificationTarget) → Program Unit
  | [] => pure ()
  | chunk :: rest => do
      let ts ← now
      let _ ← publish (.violated (verdicts.verdict resultDigest ts chunk))
      publishViolation verdicts resultDigest rest

def targetsHead (evidence : Evidence) : Option Head :=
  evidence.head.filter fun head =>
    evidence.targets.any fun target => target.transitionId = head.transitionId

def revoke (evidence : Evidence) : Program Unit :=
  match targetsHead evidence with
  | some head => revokeCurrentCertificate head
  | none => pure ()

def recordViolation (verdicts : Verdicts) (resultDigest : JsString)
    : Prog Call Reply (List Failure) := do
  let revoked ← (revoke verdicts.evidence).run
  let pieces := targetChunks verdicts.evidence.targets
  let published ← (publishViolation verdicts resultDigest pieces).run
  pure ((errorOf revoked).toList ++ (errorOf published).toList)

def publishCertified (verdicts : Verdicts) (resultDigest : JsString) (ts : Nat)
    : List (List CertificationTarget) → Option Event → Program (Option Event)
  | [], chosen => pure chosen
  | chunk :: rest, chosen => do
      let event ← certify (verdicts.verdict resultDigest ts chunk) verdicts.evidence
      let names := chunk.any fun target =>
        some target.transitionId = verdicts.evidence.head.map (·.transitionId)
      publishCertified verdicts resultDigest ts rest
        (if chosen.isNone || names then some event else chosen)

def certifyTargets (verdicts : Verdicts) (resultDigest : JsString) : Program Certificate := do
  let ts ← now
  let chosen ← publishCertified verdicts resultDigest ts
    (targetChunks verdicts.evidence.targets) none
  let currentHead ← getHead
  match chosen.bind fun event => toCertificate event currentHead fun _ => none with
  | none => throw .malformed
  | some certificate =>
      match verdicts.evidence.head with
      | some head =>
          if certificate.current then persistCurrentCertificate certificate head
          else pure certificate
      | none => pure certificate

structure VerificationReport where
  results : List VerifyResult
  certified : Bool
  evidenceDigest : JsString
  resultDigest : JsString
  failures : List VerificationFailure
  certificate : Option Certificate
  reportingErrors : List Failure

def isCertified (results : List VerifyResult) (failures : List VerificationFailure) : Bool :=
  !results.isEmpty && failures.isEmpty
    && results.all fun verified => verified.result.status = .confirmed

def failedReport (verdicts : Verdicts) (failures : List VerificationFailure)
    (reportingErrors : List Failure) : VerificationReport where
  results := verdicts.evidence.results
  certified := false
  evidenceDigest := verdicts.evidenceDigest
  resultDigest := digest (resultJson verdicts.evidence.results failures)
  failures
  certificate := none
  reportingErrors

def recordFailure (verdicts : Verdicts) (failures : List VerificationFailure)
    (causes : List Failure) : Prog Call Reply VerificationReport := do
  let errors ← recordViolation verdicts (digest (resultJson verdicts.evidence.results failures))
  pure (failedReport verdicts failures (causes ++ errors))

def recordOutcome (verdicts : Verdicts) (failures : List VerificationFailure)
    : Prog Call Reply VerificationReport := do
  let resultDigest := digest (resultJson verdicts.evidence.results failures)
  if isCertified verdicts.evidence.results failures then
    match ← (certifyTargets verdicts resultDigest).run with
    | .ok certificate =>
        pure { failedReport verdicts failures [] with
          certified := true, certificate := some certificate }
    | .error cause => recordFailure verdicts (failures ++ [.reportingError cause]) [cause]
  else recordFailure verdicts failures []

def gather (input : VerifyInput) : Program (Verdicts × List VerificationFailure) := do
  let observed ← observe
  let verificationHead ← getHead
  let targets ← verifyTargets input verificationHead
  let bound := bindingFailures input.binding observed.1
  let missing := if targets.isEmpty then [.missingTarget input.labels.isSome] else []
  let run := if bound.isEmpty then targets else []
  let results ← runEvidence (commandsOf run)
  let verdicts := {
    evidence := { head := verificationHead, targets, results }
    evidenceDigest := digest (evidenceJson targets)
    bindingFields := {
      binding := input.binding
      observedCommit := observed.1
      observedDirty := observed.2
      requestedByProgram := input.requestedByProgram
    }
  }
  pure (verdicts, bound ++ missing ++ evidenceFailures run ++ resultFailures results)

def verify (input : VerifyInput)
    : Prog Call Reply (Except Failure VerificationReport) := do
  match ← (gather input).run with
  | .error failure => pure (.error failure)
  | .ok (verdicts, failures) => .ok <$> recordOutcome verdicts failures

end PiFabric.Timeline
