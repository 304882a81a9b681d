import PiFabric.Foundation.JsString
import PiFabric.Foundation.Json

/-! Decision records: what `raise` builds, how a deadline applies, and what an answer, a
cancellation and an escalation make of an open record.
-/

namespace PiFabric.Decisions

open JsString

/-- Milliseconds since the epoch. -/
abbrev Time := ℚ

inductive Kind where
  | approval
  | question
  | escalation
  deriving DecidableEq

inductive InputMode where
  | text
  | confirm
  | select
  | editor
  deriving DecidableEq

inductive Status where
  | opened
  | answered
  | expired
  | cancelled
  deriving DecidableEq

inductive Holder where
  | root
  | user
  | supervisor (participantId : JsString)
  deriving DecidableEq

structure DecisionOption where
  id : JsString
  label : JsString
  deriving DecidableEq

structure Answer where
  optionId : Option JsString
  text : Option JsString
  answeredBy : JsString
  via : JsString
  answeredAt : Time
  deriving DecidableEq

inductive OnExpire where
  | cancel
  | default
  | escalate
  deriving DecidableEq

inductive OnFinal where
  | cancel
  | default
  deriving DecidableEq

structure Escalation where
  chain : List Holder
  hop : Nat
  hopTimeoutMs : Time
  onFinal : OnFinal
  deriving DecidableEq

inductive Reason where
  | expired
  | escalated
  deriving DecidableEq

structure HistoryEntry where
  holder : Holder
  until_ : Time
  reason : Reason
  text : Option JsString
  escalatedBy : Option JsString
  deriving DecidableEq

structure RaisedBy where
  participantId : JsString
  runId : Option JsString
  sessionId : Option JsString
  deriving DecidableEq

/-- `DecisionRecord`; an absent history is an empty one. -/
structure Record where
  id : JsString
  kind : Kind
  title : JsString
  body : Option JsString
  options : Option (List DecisionOption)
  input : InputMode
  raisedBy : RaisedBy
  holder : Holder
  createdAt : Time
  deadline : Option Time
  onExpire : OnExpire
  defaultOptionId : Option JsString
  escalation : Option Escalation
  history : List HistoryEntry
  status : Status
  answer : Option Answer
  deriving DecidableEq

inductive DecisionError where
  | empty (label : String)
  | tooLong (label : String) (max : Nat)
  | invalidHolder
  | optionCount
  | invalidOptionId (id : JsString)
  | duplicateOptionId (id : JsString)
  | selectRequiresOptions
  | takesNoOptions (mode : InputMode)
  | deadlineAndTimeout
  | timeoutRange
  | deadlineRange
  | escalationNotEscalate
  | chainLength
  | chainRepeats
  | chainStart (holder : Holder)
  | hopTimeoutRange
  | defaultOptionUnknown
  | defaultRequires
  | finalDefaultRequires
  | needsOptionId
  | hasNoOptions
  | needsText
  | unknown (id : JsString)
  | notOpen (id : JsString) (status : Status)
  | noFurtherHolder (id : JsString)
  | tooManyOpen
  | unauthorized
  deriving DecidableEq

abbrev Outcome (α : Type) := Except DecisionError α

def ensure (passes : Bool) (error : DecisionError) : Outcome Unit :=
  if passes then .ok () else .error error

def maxTitleChars : Nat := 200
def maxBodyChars : Nat := 4000
def maxTextChars : Nat := 4000
def maxOptions : Nat := 12
def maxDeadlineMs : Time := 30 * 24 * 60 * 60 * 1000
def maxOpenDecisions : Nat := 200
def maxEscalationHops : Nat := 8
def minEscalationHopMs : Time := 1000
def maxEscalationHopMs : Time := 7 * 24 * 60 * 60 * 1000
def defaultEscalationHopMs : Time := 10 * 60 * 1000
def maxEscalationReasonChars : Nat := 500
def maxStoredDecisions : Nat := 500
def resolvedRetentionMs : Time := 7 * 24 * 60 * 60 * 1000

/-- `boundedText`, of an optional string. -/
def boundedText (label : String) (max : Nat) (value : Option JsString) : Outcome (Option JsString) :=
  match value with
  | none => .ok none
  | some text => if text.length > max then .error (.tooLong label max) else .ok (some text)

/-- `boundedText`, of a required string. -/
def requiredText (label : String) (max : Nat) (value : JsString) : Outcome JsString :=
  if trim value = [] then .error (.empty label)
  else if value.length > max then .error (.tooLong label max)
  else .ok value

def isLetter (unit : UInt16) : Bool :=
  unitOf 'A' ≤ unit && unit ≤ unitOf 'Z' || unitOf 'a' ≤ unit && unit ≤ unitOf 'z'

def isToken (marks : List Char) (max : Nat) : JsString → Bool
  | [] => false
  | first :: rest =>
      (isLetter first || isDigit first) && rest.length ≤ max
        && rest.all fun unit => isLetter unit || isDigit unit || (marks.map unitOf).contains unit

def isOptionId (text : JsString) : Bool :=
  isToken ['.', '_', ':', '-'] 63 text

def isParticipantId (text : JsString) : Bool :=
  isToken ['.', '_', ':', '/', '@', '-'] 127 text

def supervisorPrefix : JsString :=
  lit "supervisor:"

def decisionHolderValue : Option JsString → Outcome Holder
  | none => .ok .user
  | some text =>
      if text = lit "root" then .ok .root
      else if text = lit "user" then .ok .user
      else if supervisorPrefix.isPrefixOf text && isParticipantId (text.drop 11) then
        .ok (.supervisor (text.drop 11))
      else .error .invalidHolder

def checkOptions (seen : List JsString) : List DecisionOption → Outcome Unit
  | [] => .ok ()
  | option :: rest => do
      ensure (isOptionId option.id) (.invalidOptionId option.id)
      ensure (!seen.contains option.id) (.duplicateOptionId option.id)
      let _ ← requiredText "option label" maxTitleChars option.label
      checkOptions (option.id :: seen) rest

def optionsValue (value : Option (List DecisionOption)) : Outcome (Option (List DecisionOption)) :=
  match value with
  | none => .ok none
  | some options => do
      ensure (0 < options.length && options.length ≤ maxOptions) .optionCount
      checkOptions [] options
      .ok (some options)

def defaultEscalationChain : Holder → List Holder
  | .user => [.user]
  | .root => [.root, .user]
  | holder => [holder, .root, .user]

structure EscalationInput where
  chain : Option (List JsString)
  hopTimeoutMs : Option Time
  onFinal : Option OnFinal

def chainValue (chain : Option (List JsString)) (holder : Holder) : Outcome (List Holder) :=
  match chain with
  | none => .ok (defaultEscalationChain holder)
  | some texts => do
      ensure (0 < texts.length && texts.length ≤ maxEscalationHops) .chainLength
      let chain ← texts.mapM fun text => decisionHolderValue (some text)
      ensure (decide chain.Nodup) .chainRepeats
      ensure (chain.head? = some holder) (.chainStart holder)
      .ok chain

/-- `escalationValue`, at its first hop. -/
def escalationValue (value : EscalationInput) (holder : Holder) : Outcome Escalation := do
  let chain ← chainValue value.chain holder
  let hopTimeoutMs := value.hopTimeoutMs.getD defaultEscalationHopMs
  ensure (minEscalationHopMs ≤ hopTimeoutMs && hopTimeoutMs ≤ maxEscalationHopMs) .hopTimeoutRange
  .ok {
    chain
    hop := 0
    hopTimeoutMs := ⌊hopTimeoutMs⌋
    onFinal := value.onFinal.getD .cancel
  }

structure RaiseInput where
  kind : Option Kind
  title : JsString
  body : Option JsString
  options : Option (List DecisionOption)
  input : Option InputMode
  holder : Option JsString
  deadline : Option Time
  timeoutMs : Option Time
  onExpire : Option OnExpire
  defaultOptionId : Option JsString
  escalation : Option EscalationInput

def confirmOptions : List DecisionOption :=
  [{ id := lit "yes", label := lit "Yes" }, { id := lit "no", label := lit "No" }]

def deadlineValue (input : RaiseInput) (now : Time) : Outcome (Option Time) :=
  match input.timeoutMs, input.deadline with
  | some _, some _ => .error .deadlineAndTimeout
  | some timeoutMs, none =>
      if 1000 ≤ timeoutMs ∧ timeoutMs ≤ maxDeadlineMs then .ok (some (now + ⌊timeoutMs⌋))
      else .error .timeoutRange
  | none, some deadline =>
      if now < deadline ∧ deadline ≤ now + maxDeadlineMs then .ok (some ⌊deadline⌋)
      else .error .deadlineRange
  | none, none => .ok none

/-- The options of an input mode, with those of a confirmation supplied. -/
def modeOptions (mode : InputMode) (options : Option (List DecisionOption))
    : Outcome (Option (List DecisionOption)) :=
  match mode with
  | .confirm => .ok (some (options.getD confirmOptions))
  | .select => if options.isSome then .ok options else .error .selectRequiresOptions
  | _ => if options.isSome then .error (.takesNoOptions mode) else .ok options

def escalationOf (input : RaiseInput) (holder : Holder) : Outcome (Option Escalation) :=
  if input.onExpire = some .escalate then
    (escalationValue (input.escalation.getD ⟨none, none, none⟩) holder).map some
  else if input.escalation.isSome then .error .escalationNotEscalate
  else .ok none

def defaultOptionOf (input : RaiseInput) (options : Option (List DecisionOption))
    : Outcome (Option JsString) :=
  match input.defaultOptionId with
  | none => .ok none
  | some id =>
      if options.any fun options => options.any fun option => option.id = id then .ok (some id)
      else .error .defaultOptionUnknown

/-- `buildDecisionRecord`, under a random id. -/
def buildDecisionRecord (input : RaiseInput) (id : JsString) (raisedBy : RaisedBy) (now : Time)
    : Outcome Record := do
  let title ← requiredText "title" maxTitleChars input.title
  let body ← boundedText "body" maxBodyChars input.body
  let given ← optionsValue input.options
  let mode := input.input.getD (if given.isSome then .select else .text)
  let options ← modeOptions mode given
  let deadline ← deadlineValue input now
  let onExpire := input.onExpire.getD .cancel
  let holder ← decisionHolderValue input.holder
  let escalation ← escalationOf input holder
  let deadline := deadline.or (escalation.map fun escalation => now + escalation.hopTimeoutMs)
  let defaultOptionId ← defaultOptionOf input options
  ensure (onExpire ≠ .default || defaultOptionId.isSome && deadline.isSome) .defaultRequires
  ensure (escalation.all fun escalation => escalation.onFinal ≠ .default || defaultOptionId.isSome)
    .finalDefaultRequires
  .ok {
    id
    kind := input.kind.getD .question
    title
    body
    options
    input := mode
    raisedBy
    holder
    createdAt := now
    deadline
    onExpire
    defaultOptionId
    escalation
    history := []
    status := .opened
    answer := none
  }

def decisionEscalation (record : Record) : Option Escalation :=
  if record.onExpire = .escalate then
    record.escalation.filter fun escalation =>
      0 < escalation.chain.length && escalation.chain.length ≤ maxEscalationHops
        && escalation.hop < escalation.chain.length && minEscalationHopMs ≤ escalation.hopTimeoutMs
  else none

structure Position where
  hop : Nat
  holder : Holder
  deadline : Time
  history : List HistoryEntry

def Position.expire (position : Position) (next : Holder) (hopTimeoutMs : Time) : Position where
  hop := position.hop + 1
  holder := next
  deadline := position.deadline + hopTimeoutMs
  history := position.history ++ [{
    holder := position.holder
    until_ := position.deadline
    reason := .expired
    text := none
    escalatedBy := none
  }]

/-- The `while` loop of `applyDecisionDeadline`, over the holders after the current one. -/
def elapse (now hopTimeoutMs : Time) : List Holder → Position → Position
  | [], position => position
  | next :: rest, position =>
      if position.deadline ≤ now then
        elapse now hopTimeoutMs rest (position.expire next hopTimeoutMs)
      else position

def atPosition (record : Record) (escalation : Escalation) (position : Position) : Record :=
  {
    record with
    holder := position.holder
    deadline := some position.deadline
    escalation := some { escalation with hop := position.hop }
    history := position.history
  }

def expired (record : Record) (byDefault : Bool) (now : Time) : Record :=
  {
    record with
    status := .expired
    answer :=
      if byDefault && record.defaultOptionId.isSome then
        some {
          optionId := record.defaultOptionId
          text := none
          answeredBy := lit "deadline"
          via := lit "expiry"
          answeredAt := now
        }
      else record.answer
  }

def applyDecisionDeadline (record : Record) (now : Time) : Record :=
  match record.status, record.deadline with
  | .opened, some deadline =>
      if now < deadline then record
      else
        match decisionEscalation record with
        | none => expired record (record.onExpire = .default) now
        | some escalation =>
            let position := elapse now escalation.hopTimeoutMs
              (escalation.chain.drop (escalation.hop + 1))
              { hop := escalation.hop, holder := record.holder, deadline
                history := record.history }
            let current := atPosition record escalation position
            if now < position.deadline then current
            else expired current (escalation.onFinal = .default) now
  | _, _ => record

/-- `DecisionAuthorize`: whether the callback returns. -/
abbrev Authorize := Record → Bool

structure AnswerInput where
  optionId : Option JsString
  text : Option JsString

def validateDecisionAnswer (record : Record) (input : AnswerInput)
    : Outcome (Option JsString × Option JsString) := do
  let text ← boundedText "answer text" maxTextChars input.text
  match record.options with
  | some options =>
      match input.optionId with
      | some id =>
          if options.any fun option => option.id = id then .ok (some id, text)
          else .error .needsOptionId
      | none => .error .needsOptionId
  | none =>
      if input.optionId.isSome then .error .hasNoOptions
      else if text.isNone then .error .needsText
      else .ok (none, text)

inductive Change where
  | answer (input : AnswerInput) (answeredBy via : JsString) (authorize : Authorize)
  | cancel (answeredBy via : JsString) (authorize : Authorize)
  | escalate (reason : Option JsString) (escalatedBy : JsString) (authorize : Authorize)

def Change.check : Change → Outcome Unit
  | escalate reason _ _ => (boundedText "escalation reason" maxEscalationReasonChars reason).map
      fun _ => ()
  | _ => .ok ()

def Change.authorize : Change → Authorize
  | answer _ _ _ authorize => authorize
  | cancel _ _ authorize => authorize
  | escalate _ _ authorize => authorize

/-- `escalate`'s next record. -/
def escalated (record : Record) (reason : Option JsString) (escalatedBy : JsString) (now : Time)
    : Outcome Record :=
  match decisionEscalation record with
  | none => .error (.noFurtherHolder record.id)
  | some escalation =>
      match escalation.chain.drop (escalation.hop + 1) with
      | [] => .error (.noFurtherHolder record.id)
      | holder :: _ =>
          .ok {
            record with
            holder
            deadline := some (now + escalation.hopTimeoutMs)
            escalation := some { escalation with hop := escalation.hop + 1 }
            history := record.history ++ [{
              holder := record.holder
              until_ := now
              reason := .escalated
              text := reason
              escalatedBy := some escalatedBy
            }]
          }

/-- `next` of `#transition`, on the record that the compare-and-swap replaces. -/
def Change.next (change : Change) (record : Record) (now : Time) : Outcome Record := do
  ensure (change.authorize record) .unauthorized
  match change with
  | answer input answeredBy via _ => do
      let given ← validateDecisionAnswer record input
      .ok {
        record with
        status := .answered
        answer := some {
          optionId := given.1
          text := given.2
          answeredBy
          via
          answeredAt := now
        }
      }
  | cancel answeredBy via _ =>
      .ok {
        record with
        status := .cancelled
        answer := some { optionId := none, text := none, answeredBy, via, answeredAt := now }
      }
  | escalate reason escalatedBy _ => escalated record reason escalatedBy now

/-- When a resolved record was resolved, as pruning reads it. -/
def Record.resolvedAt (record : Record) : Time :=
  (record.answer.map Answer.answeredAt).getD record.createdAt

end PiFabric.Decisions
