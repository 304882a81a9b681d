import PiFabric.Foundation.Sha256
import PiFabric.Foundation.Utf8

/-! The records of a state timeline: transitions, the head that points at one of them, their
certificates, and the mesh events they are folded from.
-/

namespace PiFabric.Timeline

open JsString

def casRetryLimit : Nat := 8
def reportTextMaxBytes : Nat := 8 * 1024
def eventTextMaxBytes : Nat := 1024
def eventTargetLimit : Nat := 16
def eventRollbackLimit : Nat := 8
def transitionProtocolVersion : Nat := 1
def durableHeadProtocolVersion : Nat := 2
def headCommitProofVersion : Nat := 1

/-- `Number.isSafeInteger` of a natural number. -/
def isSafeInteger (value : Nat) : Bool :=
  value < 2 ^ 53

/-- Where `truncateUtf8` cuts: back from the bound while the byte there continues a character. -/
def cutPoint (bytes : List UInt8) : Nat → Nat
  | 0 => 0
  | bound + 1 =>
      if (bytes.getD (bound + 1) 0) &&& 0xC0 = 0x80 then cutPoint bytes bound else bound + 1

structure Truncated where
  value : JsString
  omittedBytes : Nat
deriving DecidableEq

def truncateUtf8 (value : JsString) (maxBytes : Nat) : Truncated :=
  let bytes := Utf8.encode value
  if bytes.length ≤ maxBytes then { value, omittedBytes := 0 }
  else
    let last := cutPoint bytes maxBytes
    { value := Utf8.decode (bytes.take last), omittedBytes := bytes.length - last }

def digest (value : Json) : JsString :=
  lit "sha256:" ++ Sha256.hex (Utf8.encode (Json.stringify value))

/-- The slices of a list, one at least: the loop that fills `deletedChunks` and `targetChunks`. -/
def chunks {α : Type} (size : Nat) (items : List α) : List (List α) :=
  match (List.range ((items.length + size - 1) / size)).map fun index =>
      (items.drop (index * size)).take size with
  | [] => [[]]
  | slices => slices

section
variable {α : Type} {size : Nat} {items chunk : List α} {item : α}

theorem mem_of_mem_chunks (h : chunk ∈ chunks size items) (inside : item ∈ chunk)
    : item ∈ items := by
  unfold chunks at h
  split at h
  · simp only [List.mem_singleton] at h
    simp [h] at inside
  · obtain ⟨index, -, rfl⟩ := List.mem_map.mp h
    exact List.mem_of_mem_drop (List.mem_of_mem_take inside)

theorem exists_mem_chunks (positive : 0 < size) (h : item ∈ items)
    : ∃ chunk ∈ chunks size items, item ∈ chunk := by
  obtain ⟨index, bound, rfl⟩ := List.getElem_of_mem h
  have slice : (items.drop (index / size * size)).take size
      ∈ (List.range ((items.length + size - 1) / size)).map fun index =>
        (items.drop (index * size)).take size := by
    refine List.mem_map.mpr ⟨index / size, List.mem_range.mpr ?_, rfl⟩
    rw [Nat.div_lt_iff_lt_mul positive, Nat.mul_comm]
    have whole := Nat.div_add_mod (items.length + size - 1) size
    have rest := Nat.mod_lt (items.length + size - 1) positive
    omega
  refine ⟨(items.drop (index / size * size)).take size, ?_, ?_⟩
  · unfold chunks
    split
    · next none_ => simp [none_] at slice
    · exact slice
  · have whole := Nat.div_add_mod index size
    have rest := Nat.mod_lt index positive
    rw [Nat.mul_comm] at whole
    refine List.mem_iff_getElem.mpr ⟨index % size, ?_, ?_⟩
    · simp only [List.length_take, List.length_drop]
      omega
    · simp only [List.getElem_take, List.getElem_drop]
      congr 1

end

inductive TransitionKind where
  | state
  | representation
deriving DecidableEq

inductive TransitionPhase where
  | proposed
  | committed
  | rejected
deriving DecidableEq

inductive CertificationStatus where
  | pending
  | certified
deriving DecidableEq

structure ComplexityDelta where
  file : JsString
  supported : Bool
  language : Option JsString
  previous : Option Nat
  current : Option Nat
  delta : Option Int
  baseline : Option Bool
deriving DecidableEq

structure TransitionComplexity where
  files : List ComplexityDelta
  netDelta : Int
deriving DecidableEq

/-- What a proposal, a head and a record of the history all say of a transition. -/
structure Transition where
  label : JsString
  fromLabel : Option JsString
  toLabel : JsString
  summary : JsString
  evidence : Option (List JsString)
  tags : Option (List JsString)
  kind : TransitionKind
  complexity : Option TransitionComplexity
  certificationStatus : Option CertificationStatus
  ts : Nat
deriving DecidableEq

structure CertificationTarget where
  transitionId : JsString
  label : JsString
  toLabel : JsString
deriving DecidableEq

structure CertificationHead where
  transitionId : JsString
  label : JsString
  labelDigest : Option JsString
  labelOmittedBytes : Option Nat
  toLabel : JsString
  toDigest : Option JsString
  toOmittedBytes : Option Nat
  version : Nat
deriving DecidableEq

/-- `StateCertificateBindingFields`: what the caller claims, and what the host observed. -/
structure BindingFields where
  binding : Option (List (JsString × JsString))
  observedCommit : Option JsString
  observedDirty : Option Bool
  requestedByProgram : Bool
deriving DecidableEq

structure Certificate where
  certificateId : JsString
  sequence : Nat
  targets : List CertificationTarget
  head : Option CertificationHead
  evidenceDigest : JsString
  resultDigest : JsString
  ts : Nat
  current : Bool
  bindingFields : BindingFields
deriving DecidableEq

inductive ProofStatus where
  | pending
  | committed
deriving DecidableEq

structure CommitProof where
  version : Nat
  status : ProofStatus
deriving DecidableEq

/-- `StateHeadValue`: what the head pointer holds. -/
structure HeadValue extends Transition where
  protocolVersion : Option Nat
  commitProof : Option CommitProof
  transitionSequence : Option Nat
  transitionId : JsString
  certificate : Option Certificate
deriving DecidableEq

/-- `StateHead`: the value and its version. -/
structure Head extends HeadValue where
  version : Nat
deriving DecidableEq

structure TransitionRecord extends Transition where
  transitionId : JsString
  sequence : Nat
  certificate : Option Certificate
deriving DecidableEq

/-- The keys of the head and of the complexity ledgers. -/
inductive Key where
  | current
  | complexity (file : JsString)
deriving DecidableEq

def Key.name : Key → JsString
  | current => lit "state/current"
  | complexity file => lit "state/complexity/" ++ file

structure LedgerValue where
  file : JsString
  language : JsString
  count : Nat
  lastDelta : Int
  ts : Nat
deriving DecidableEq

inductive Value where
  | head (value : HeadValue)
  | ledger (value : LedgerValue)
deriving DecidableEq

abbrev Entry : Type := Value × Nat

def toHead : Entry → Option Head
  | (.head value, version) => some { value with version }
  | _ => none

inductive VerifyStatus where
  | confirmed
  | violated
  | error
deriving DecidableEq

/-- The data of a `state.certified` or `state.violated` event that a reader folds. -/
structure Verdict where
  targets : List CertificationTarget
  head : Option CertificationHead
  evidenceDigest : JsString
  resultDigest : JsString
  ts : Nat
  bindingFields : BindingFields
deriving DecidableEq

/-- The kinds of the events of the topic, with their data. -/
inductive Payload where
  | transition (phase : TransitionPhase) (data : Transition)
  | committed (transitionId : JsString)
  | rejected (transitionId : JsString) (deleted : List (Key × Nat))
  | certified (data : Verdict)
  | violated (data : Verdict)
deriving DecidableEq

structure Event where
  id : JsString
  sequence : Nat
  payload : Payload
deriving DecidableEq

def committedTransitionIds (events : List Event) : List JsString :=
  let committed := events.filterMap fun event =>
    match event.payload with
    | .committed transitionId => some transitionId
    | _ => none
  let rejected := events.filterMap fun event =>
    match event.payload with
    | .rejected transitionId _ => some transitionId
    | _ => none
  committed.filter fun transitionId => !rejected.contains transitionId

def toStringArray (items : Option (List JsString)) : Option (List JsString) :=
  match (items.getD []).filter fun item => !(trim item).isEmpty with
  | [] => none
  | kept => some kept

def toRecord (event : Event) (committedIds : List JsString) : Option TransitionRecord :=
  match event.payload with
  | .transition phase data =>
      if phase = .proposed && !committedIds.contains event.id then none
      else if phase = .rejected then none
      else if data.label.isEmpty || data.toLabel.isEmpty then none
      else some {
        data with
        evidence := toStringArray data.evidence
        tags := toStringArray data.tags
        certificationStatus := data.certificationStatus.filter (· = .pending)
        transitionId := event.id
        sequence := event.sequence
        certificate := none
      }
  | _ => none

def toHeadRecord (head : Head) : Option TransitionRecord :=
  match head.transitionSequence with
  | some sequence =>
      if isSafeInteger sequence && 1 ≤ sequence then
        some {
          head.toTransition with
          transitionId := head.transitionId
          sequence
          certificate := none
        }
      else none
  | none => none

def headReadable (sequence version committed pending marker : Bool) : Bool :=
  sequence && version && (committed || pending && marker)

/-- What `getHead` does with a head before it reads any event: a durable head is decided on its
proof, unless that is pending.
-/
def hasValidSequence (head : Head) : Bool :=
  match head.transitionSequence with
  | some sequence => isSafeInteger sequence && 0 < sequence
  | none => false

def validVersion (head : Head) : Bool :=
  match head.commitProof with
  | some proof => proof.version = headCommitProofVersion
  | none => false

def proofIs (head : Head) (status : ProofStatus) : Bool :=
  match head.commitProof with
  | some proof => proof.status = status
  | none => false

/-- Whether `getHead` reads the events of the topic. -/
def needsEvents (head : Head) : Bool :=
  if head.protocolVersion = some durableHeadProtocolVersion then
    hasValidSequence head && validVersion head && proofIs head .pending
  else true

def readHead (head : Head) (events : List Event) : Option Head :=
  let committedIds := committedTransitionIds events
  if head.protocolVersion = some durableHeadProtocolVersion then
    let marker := needsEvents head && committedIds.contains head.transitionId
    if headReadable (hasValidSequence head) (validVersion head) (proofIs head .committed)
        (proofIs head .pending) marker then some head
    else none
  else if head.protocolVersion = some transitionProtocolVersion then
    if committedIds.contains head.transitionId then some head else none
  else
    match events.find? fun event =>
        (match event.payload with | .transition _ _ => true | _ => false)
          && event.id = head.transitionId with
    | none => some head
    | some proposal =>
        match proposal.payload with
        | .transition .proposed _ => if committedIds.contains proposal.id then some head else none
        | _ => some head

def deletedIn (key : Key) (event : Event) : Option Nat :=
  match event.payload with
  | .rejected _ deleted => (deleted.find? fun item => item.1 = key).map (·.2)
  | _ => none

def lastDeletedVersion (key : Key) (events : List Event) : Nat :=
  (events.reverse.findSome? (deletedIn key)).getD 0

end PiFabric.Timeline
