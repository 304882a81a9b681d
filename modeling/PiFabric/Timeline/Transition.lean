import PiFabric.Timeline.Mesh

/-! `StateStore.transition`: a proposal is published, the head is advanced to it by
compare-and-swap, and its commit marker is published. A failure before the marker rolls back what
was written and reports the transition rejected.
-/

namespace PiFabric.Timeline

open JsString
open Interleaving (Prog)

namespace Program

def attempt {α : Type} (program : Program α) : Program (Except Failure α) :=
  ExceptT.mk (program.run >>= fun outcome => pure (.ok outcome))

def check : Option Failure → Program Unit
  | some failure => throw failure
  | none => pure ()

end Program

open Program

structure TransitionInput where
  label : JsString
  fromLabel : Option JsString := none
  toLabel : JsString
  summary : JsString := []
  evidence : Option (List JsString) := none
  tags : Option (List JsString) := none
  kind : Option TransitionKind := none
  complexity : Option (List JsString) := none
  force : Bool := false

structure LedgerUpdate where
  key : Key
  value : LedgerValue
  expectedVersion : Nat
  before : Option Entry

structure PreparedComplexity where
  record : TransitionComplexity
  updates : List LedgerUpdate

structure Proposal where
  event : Event
  data : Transition
  updates : List LedgerUpdate
  expectedVersion : Nat

def getHead : Program (Option Head) := do
  match (← get .current).bind toHead with
  | none => pure none
  | some head =>
      if needsEvents head then pure (readHead head (← read))
      else pure (readHead head [])

def versionOf (key : Key) : Option Entry → Program Nat
  | some entry => pure entry.2
  | none => do pure (lastDeletedVersion key (← read))

def ledgerCount : Option Entry → Option Nat
  | some (.ledger value, _) => some value.count
  | _ => none

def prepareFile (ts : Nat) (file : JsString) : Program (ComplexityDelta × Option LedgerUpdate) := do
  match ← measure file with
  | none => pure (⟨file, false, none, none, none, none, none⟩, none)
  | some (language, count) =>
      let key := Key.complexity file
      let entry ← get key
      let previous := ledgerCount entry
      let delta := previous.elim 0 fun before => (count : Int) - before
      let value := { file, language, count, lastDelta := delta, ts }
      let expectedVersion ← versionOf key entry
      pure (⟨file, true, some language, previous, some count, some delta, some previous.isNone⟩,
        some { key, value, expectedVersion, before := entry })

/-- `prepareComplexity` of files that lie within the project. -/
def prepareComplexity (ts : Nat) : List JsString → Program PreparedComplexity
  | [] => pure { record := { files := [], netDelta := 0 }, updates := [] }
  | file :: rest => do
      let (delta, update) ← prepareFile ts file
      let others ← prepareComplexity ts rest
      pure {
        record := {
          files := delta :: others.record.files
          netDelta := delta.delta.getD 0 + others.record.netDelta
        }
        updates := update.toList ++ others.updates
      }

def checkFrom (input : TransitionInput) (current : Option Head) : Option Failure :=
  match current, input.fromLabel with
  | some head, some declared =>
      if !input.force && declared ≠ head.toLabel then some (.fromMismatch head.toLabel declared)
      else none
  | _, _ => none

def hasEvidence (input : TransitionInput) : Bool :=
  (input.evidence.getD []).any fun command => !(trim command).isEmpty

def isReduction (prepared : Option PreparedComplexity) : Bool :=
  prepared.any fun complexity => complexity.record.netDelta < 0

def checkReduction (input : TransitionInput) (prepared : Option PreparedComplexity)
    : Option Failure :=
  match prepared with
  | some complexity =>
      if complexity.record.netDelta < 0 && !hasEvidence input then
        some (.reduction complexity.record.netDelta)
      else none
  | none => none

def proposalData (input : TransitionInput) (prepared : Option PreparedComplexity) (ts : Nat)
    : Transition where
  label := input.label
  fromLabel := input.fromLabel
  toLabel := input.toLabel
  summary := input.summary
  evidence := input.evidence
  tags := input.tags
  kind := input.kind.getD .state
  complexity := prepared.map (·.record)
  certificationStatus := if isReduction prepared then some .pending else none
  ts

def prepare (input : TransitionInput) (ts : Nat) : Program (Option PreparedComplexity) :=
  match input.complexity with
  | some files => some <$> prepareComplexity ts files
  | none => pure none

def propose (input : TransitionInput) : Program Proposal := do
  let physicalCurrent ← get .current
  let current ← getHead
  let expectedVersion ← versionOf .current physicalCurrent
  check (if physicalCurrent.isSome && current.isNone then some .quarantined else none)
  check (checkFrom input current)
  let ts ← now
  let prepared ← prepare input ts
  check (checkReduction input prepared)
  let data := proposalData input prepared ts
  let event ← publish (.transition .proposed data)
  pure { event, data, updates := (prepared.map (·.updates)).getD [], expectedVersion }

def headPayload (proposal : Proposal) : HeadValue where
  toTransition := proposal.data
  protocolVersion := some durableHeadProtocolVersion
  commitProof := some { version := headCommitProofVersion, status := .pending }
  transitionSequence := some proposal.event.sequence
  transitionId := proposal.event.id
  certificate := none

def revalidate (input : AdvanceHeadInput) (current : Option Entry) : Option Failure :=
  match current, input.fromLabel with
  | some entry, some declared =>
      match (toHead entry).map (·.toLabel) with
      | some actualTo =>
          if !input.force && declared ≠ actualTo then some (.contention actualTo declared) else none
      | none => none
  | some entry, none =>
      if input.force then none else some (.advanced ((toHead entry).map (·.toLabel)))
  | none, _ => none

def advanceAttempts (input : AdvanceHeadInput)
    : Nat → Nat → Program (Entry × Option Entry)
  | 0, _ => throw .exhausted
  | attempts + 1, version => do
      let before ← get .current
      match ← attempt (advance input version) with
      | .ok entry => pure (entry, before)
      | .error failure =>
          match failure.found? with
          | none => throw failure
          | some found => do
              let current ← reread
              check (revalidate input current)
              advanceAttempts input attempts ((current.map (·.2)).getD found)

def advanceHeadWithBefore (input : AdvanceHeadInput) : Program (Entry × Option Entry) :=
  advanceAttempts input casRetryLimit input.expectedVersion

def committedProof : CommitProof where
  version := headCommitProofVersion
  status := .committed

def isCommittedHead (transitionId : JsString) (current : Option Entry) : Bool :=
  match current.bind toHead with
  | some head => head.transitionId = transitionId && head.commitProof = some committedProof
  | none => false

def markHeadCommitted (value : HeadValue) (pending : Entry) : Program Entry := do
  let committed := .head { value with commitProof := some committedProof }
  match ← attempt (put .current committed pending.2) with
  | .ok entry => pure entry
  | .error failure =>
      match failure.found? with
      | none => throw failure
      | some _ => do
          let current ← get .current
          pure (if isCommittedHead value.transitionId current then current.getD pending
            else pending)

structure AppliedWrite where
  key : Key
  before : Option Entry
  written : Entry

structure Rollback where
  deleted : List (Key × Nat)
  errors : List (Key × Failure)

def undo (write : AppliedWrite) : Program (Option Nat) :=
  match write.before with
  | some before => do
      let _ ← put write.key before.1 write.written.2
      pure none
  | none => delete write.key write.written.2

/-- The rollback with one more write undone, or not. -/
def Rollback.add (rollback : Rollback) (key : Key) : Except Failure (Option Nat) → Rollback
  | .ok (some version) => { rollback with deleted := (key, version) :: rollback.deleted }
  | .ok none => rollback
  | .error failure => { rollback with errors := (key, failure) :: rollback.errors }

def rollbackWrites : List AppliedWrite → Prog Call Reply Rollback
  | [] => pure { deleted := [], errors := [] }
  | write :: rest => do
      let undone ← (undo write).run
      let others ← rollbackWrites rest
      pure (others.add write.key undone)

def publishRejections (transitionId : JsString) : List (List (Key × Nat)) → Program Unit
  | [] => pure ()
  | chunk :: rest => do
      let _ ← publish (.rejected transitionId chunk)
      publishRejections transitionId rest

/-- Why a transition was not made: before its proposal, with its marker published, or rejected,
with the errors of its rollback and of its report.
-/
inductive TransitionError where
  | refused (cause : Failure)
  | proofPending (cause : Failure)
  | rejected (cause : Failure) (rollback : List (Key × Failure)) (reporting : Option Failure)

def errorOf {α : Type} : Except Failure α → Option Failure
  | .ok _ => none
  | .error failure => some failure

def reject (transitionId : JsString) (writes : List AppliedWrite) (cause : Failure)
    : Prog Call Reply TransitionError := do
  let rollback ← rollbackWrites writes
  let reported ← (publishRejections transitionId (chunks eventRollbackLimit rollback.deleted)).run
  pure (.rejected cause rollback.errors (errorOf reported))

/-- The ledger writes, as far as they went, the last one first. -/
def applyUpdates : List LedgerUpdate → List AppliedWrite
    → Prog Call Reply (List AppliedWrite × Option Failure)
  | [], applied => pure (applied, none)
  | update :: rest, applied => do
      match ← (put update.key (.ledger update.value) update.expectedVersion).run with
      | .error failure => pure (applied, some failure)
      | .ok written =>
          applyUpdates rest ({ key := update.key, before := update.before, written } :: applied)

/-- What `advanceHeadWithBefore` is given. -/
def advanceInput (input : TransitionInput) (proposal : Proposal) : AdvanceHeadInput where
  payload := headPayload proposal
  fromLabel := input.fromLabel
  force := input.force
  expectedVersion := proposal.expectedVersion

/-- The head is advanced, and the marker published. -/
def commit (input : TransitionInput) (proposal : Proposal) (applied : List AppliedWrite)
    : Prog Call Reply (Except TransitionError (Event × Option Head)) := do
  let transitionId := proposal.event.id
  match ← (advanceHeadWithBefore (advanceInput input proposal)).run with
  | .error failure => .error <$> reject transitionId applied failure
  | .ok (entry, before) => do
      match ← (publish (.committed transitionId)).run with
      | .error failure =>
          .error <$> reject transitionId
            ({ key := .current, before, written := entry } :: applied) failure
      | .ok _ => do
          match ← (markHeadCommitted (headPayload proposal) entry).run with
          | .error failure => pure (.error (.proofPending failure))
          | .ok committed => pure (.ok (proposal.event, toHead committed))

def transition (input : TransitionInput)
    : Prog Call Reply (Except TransitionError (Event × Option Head)) := do
  match ← (propose input).run with
  | .error failure => pure (.error (.refused failure))
  | .ok proposal => do
      let (applied, failed) ← applyUpdates proposal.updates []
      match failed with
      | some failure => .error <$> reject proposal.event.id applied failure
      | none => commit input proposal applied

end PiFabric.Timeline
