import PiFabric.Foundation.Cas
import PiFabric.Foundation.Interleaving
import PiFabric.Timeline.History

/-! The mesh a state store works on, and the calls its operations make. Each call is one atomic
step. A call of the store may fail, and then changes nothing.
-/

namespace PiFabric.Timeline

open JsString
open Interleaving (Prog)

structure CommandResult where
  status : VerifyStatus
  exitCode : Option Int
  output : JsString
  outputBytes : Nat
  outputOmittedBytes : Nat
  outputDigest : JsString
  error : Option JsString
deriving DecidableEq

structure VerifyResult where
  claim : JsString
  command : JsString
  result : CommandResult
deriving DecidableEq

/-- What a verification went by: the head it read, its targets, and the commands it ran. -/
structure Evidence where
  head : Option Head
  targets : List TransitionRecord
  results : List VerifyResult
deriving DecidableEq

/-- An event of the topic, who published it, the version of the head then, and the evidence of a
certification.
-/
structure Published (ι : Type) where
  event : Event
  author : ι
  headVersion : Nat
  evidence : Option Evidence

structure AdvanceHeadInput where
  payload : HeadValue
  fromLabel : Option JsString
  force : Bool
  expectedVersion : Nat

/-- A head that was put for a proposal, and the head it replaced. -/
structure Advance (ι : Type) where
  author : ι
  input : AdvanceHeadInput
  replaced : Option HeadValue

structure World (ι : Type) where
  store : Cas.Store Key Value
  log : List (Published ι)
  advances : List (Advance ι)
  hasty : List ι

def emptyWorld (ι : Type) : World ι where
  store := Cas.empty
  log := []
  advances := []
  hasty := []

variable {ι : Type}

namespace World

def events (w : World ι) : List Event :=
  w.log.map (·.event)

def stateEvents (maxReadEvents : Nat) (w : World ι) : List Event :=
  w.events.drop (w.events.length - maxReadEvents)

def head (w : World ι) : Option Head :=
  (w.store.get .current).bind toHead

/-- Whether a commit marker names a transition. -/
def Marked (w : World ι) (transitionId : JsString) : Prop :=
  ∃ published ∈ w.log, published.event.payload = .committed transitionId

def Rejected (w : World ι) (transitionId : JsString) : Prop :=
  ∃ published ∈ w.log, ∃ deleted, published.event.payload = .rejected transitionId deleted

def Committed (w : World ι) (transitionId : JsString) : Prop :=
  w.Marked transitionId ∧ ¬w.Rejected transitionId

instance (w : World ι) (transitionId : JsString) : Decidable (w.Marked transitionId) :=
  List.decidableBEx _ w.log

instance (w : World ι) (transitionId : JsString) : Decidable (w.Rejected transitionId) :=
  decidable_of_iff (w.log.any fun published =>
      match published.event.payload with
      | .rejected rejected _ => rejected = transitionId
      | _ => false) <| by
    rw [List.any_eq_true]
    refine exists_congr fun published => and_congr_right fun _ => ?_
    cases published.event.payload <;> simp

instance (w : World ι) (transitionId : JsString) : Decidable (w.Committed transitionId) :=
  inferInstanceAs (Decidable (_ ∧ _))

/-- Whether the head is one whose proposal has its commit marker, if there is a head. -/
def HeadCommitted (w : World ι) : Prop :=
  ∀ head ∈ w.head, w.Marked head.transitionId

instance (w : World ι) : Decidable w.HeadCommitted :=
  match found : w.head with
  | none => isTrue (by simp [HeadCommitted, found])
  | some head => decidable_of_iff (w.Marked head.transitionId) (by simp [HeadCommitted, found])

end World

inductive Failure where
  | conflict (key : Key) (expected found : Nat)
  | storeFailed (message : JsString)
  | quarantined
  | fromMismatch (headTo declared : JsString)
  | reduction (netDelta : Int)
  | contention (headTo declared : JsString)
  | advanced (headTo : Option JsString)
  | exhausted
  | refused (message : JsString)
  | malformed
deriving DecidableEq

def Failure.message : Failure → JsString
  | conflict key expected found =>
      lit "Mesh compare-and-swap failed for " ++ key.name ++ lit ": expected version "
        ++ Json.digits expected ++ lit ", found " ++ Json.digits found
  | storeFailed message => message
  | quarantined =>
      lit "State contention: current head belongs to an uncommitted or quarantined proposal"
  | fromMismatch headTo declared =>
      lit "State from-mismatch: head is at \"" ++ headTo
        ++ lit "\", but transition declares from \"" ++ declared ++ lit "\""
  | reduction netDelta =>
      lit "State complexity reduction rejected: net decision-point delta is "
        ++ Json.integerToken netDelta
        ++ lit (". Reducing branches is also achievable by deleting error handling; attach at "
          ++ "least one replayable behavior-preservation evidence command to separate abstraction "
          ++ "from vandalism. The reduction remains pending until a later state.verify() succeeds.")
  | contention headTo declared =>
      lit "State contention: head is at \"" ++ headTo ++ lit "\", cannot transition from \""
        ++ declared ++ lit "\""
  | advanced headTo =>
      lit "State contention: head advanced to \"" ++ headTo.getD (lit "<unknown>")
        ++ lit "\" before transition"
  | exhausted =>
      lit "State contention: compare-and-swap retries exhausted after "
        ++ Json.digits casRetryLimit ++ lit " attempts"
  | refused message => message
  | malformed => lit "State certificate event was malformed"

/-- `isCasError` and `casActualVersion`: the version a lost compare-and-swap found. -/
def Failure.found? : Failure → Option Nat
  | .conflict _ _ found => some found
  | _ => none

/-- The calls of the operations. `advance` is the put of `advanceHeadWithBefore` and `reread` its
`get` after a lost compare-and-swap; `certify` publishes a `state.certified` event; `runCommand`
runs a command that its preflight does not refuse.
-/
inductive Call where
  | get (key : Key)
  | reread
  | read
  | put (key : Key) (value : Value) (ifVersion : Nat)
  | advance (input : AdvanceHeadInput) (ifVersion : Nat)
  | delete (key : Key) (ifVersion : Nat)
  | publish (payload : Payload)
  | certify (data : Verdict) (evidence : Evidence)
  | now
  | measure (file : JsString)
  | observe
  | runCommand (command : JsString)

def Call.isReread : Call → Bool
  | .reread => true
  | _ => false

abbrev Reply : Call → Type
  | .get _ | .reread => Except Failure (Option Entry)
  | .read => Except Failure (List Event)
  | .put .. | .advance .. => Except Failure Entry
  | .delete .. => Except Failure (Option Nat)
  | .publish _ | .certify .. => Except Failure Event
  | .now => Nat
  | .measure _ => Option (JsString × Nat)
  | .observe => Option JsString × Option Bool
  | .runCommand _ => Except Failure CommandResult

/-- What a call does not decide: whether it fails, whether a tombstone is forgotten, the identity
and the sequence of a new event, the time, and what commands and files say.
-/
structure Choice where
  fails : Bool := false
  message : JsString := []
  evicted : Bool := false
  id : JsString := []
  sequence : Nat := 0
  now : Nat := 0
  measured : Option (JsString × Nat) := none
  observed : Option JsString × Option Bool := (none, none)
  result : CommandResult := ⟨.confirmed, some 0, [], 0, 0, [], none⟩

/-- `randomUUID` of a publish. -/
def IsEventId (id : JsString) : Prop :=
  id.length = 36 ∧ ∀ unit ∈ id, unit < 0x80

instance (id : JsString) : Decidable (IsEventId id) :=
  have := List.decidableBAll (fun unit : UInt16 => unit < 0x80) id
  inferInstanceAs (Decidable (_ ∧ _))

namespace World

def foundVersion (w : World ι) (key : Key) (evicted : Bool) : Nat :=
  if evicted && (w.store.rows key).isNone then 0 else w.store.version key

/-- Whether an event may be appended: a new identity, and a sequence above the last. -/
def Appends (w : World ι) (choice : Choice) : Prop :=
  IsEventId choice.id ∧ (∀ event ∈ w.events, event.id ≠ choice.id)
    ∧ (∀ event ∈ w.events, event.sequence < choice.sequence) ∧ 0 < choice.sequence
    ∧ isSafeInteger choice.sequence = true

instance (w : World ι) (choice : Choice) : Decidable (w.Appends choice) :=
  inferInstanceAs (Decidable (_ ∧ _))

def append (w : World ι) (author : ι) (choice : Choice) (payload : Payload)
    (evidence : Option Evidence) : World ι :=
  { w with
    log := w.log ++ [{
      event := { id := choice.id, sequence := choice.sequence, payload }
      author
      headVersion := w.store.version .current
      evidence
    }] }

def write (w : World ι) (key : Key) (value : Option Value) : World ι :=
  { w with store := w.store.write key value }

def perform (maxReadEvents : Nat) (thread : ι) (w : World ι)
    : (call : Call) → Choice → Option (Reply call × World ι)
  | .get key, choice =>
      if choice.fails then some (.error (.storeFailed choice.message), w)
      else some (.ok (w.store.get key), w)
  | .reread, choice =>
      if choice.fails then some (.error (.storeFailed choice.message), w)
      else some (.ok (w.store.get .current),
        if w.HeadCommitted then w else { w with hasty := thread :: w.hasty })
  | .read, choice =>
      if choice.fails then some (.error (.storeFailed choice.message), w)
      else some (.ok (w.stateEvents maxReadEvents), w)
  | .put key value ifVersion, choice =>
      let found := w.foundVersion key choice.evicted
      if choice.fails then some (.error (.storeFailed choice.message), w)
      else if ifVersion = found then
        some (.ok (value, w.store.issue key), w.write key (some value))
      else some (.error (.conflict key ifVersion found), w)
  | .advance input ifVersion, choice =>
      let found := w.foundVersion .current choice.evicted
      if choice.fails then some (.error (.storeFailed choice.message), w)
      else if ifVersion = found then
        some (.ok (.head input.payload, w.store.issue .current),
          { w.write .current (some (.head input.payload)) with
            advances := w.advances
              ++ [{ author := thread, input, replaced := w.head.map (·.toHeadValue) }] })
      else some (.error (.conflict .current ifVersion found), w)
  | .delete key ifVersion, choice =>
      let found := w.foundVersion key choice.evicted
      if choice.fails then some (.error (.storeFailed choice.message), w)
      else if ifVersion = found then
        if (w.store.rows key).isSome then
          some (.ok (some (w.store.issue key)), w.write key none)
        else some (.ok none, w)
      else some (.error (.conflict key ifVersion found), w)
  | .publish payload, choice =>
      if choice.fails then some (.error (.storeFailed choice.message), w)
      else if w.Appends choice then
        some (.ok ⟨choice.id, choice.sequence, payload⟩, w.append thread choice payload none)
      else none
  | .certify data evidence, choice =>
      if choice.fails then some (.error (.storeFailed choice.message), w)
      else if w.Appends choice then
        some (.ok ⟨choice.id, choice.sequence, .certified data⟩,
          w.append thread choice (.certified data) (some evidence))
      else none
  | .now, choice => some (choice.now, w)
  | .measure _, choice => some (choice.measured, w)
  | .observe, choice => some (choice.observed, w)
  | .runCommand _, choice =>
      if choice.fails then some (.error (.refused choice.message), w)
      else some (.ok choice.result, w)

end World

/-- What a call may reply, and the world it leaves. -/
def Performs (maxReadEvents : Nat) : Interleaving.Perform ι (World ι) Call Reply :=
  fun thread w call reply w' =>
    ∃ choice, w.perform maxReadEvents thread call choice = some (reply, w')

abbrev Program (α : Type) : Type :=
  ExceptT Failure (Prog Call Reply) α

namespace Program

def get (key : Key) : Program (Option Entry) :=
  ExceptT.mk (Prog.send (Call.get key))

def reread : Program (Option Entry) :=
  ExceptT.mk (Prog.send Call.reread)

def read : Program (List Event) :=
  ExceptT.mk (Prog.send Call.read)

def put (key : Key) (value : Value) (ifVersion : Nat) : Program Entry :=
  ExceptT.mk (Prog.send (Call.put key value ifVersion))

def advance (input : AdvanceHeadInput) (ifVersion : Nat) : Program Entry :=
  ExceptT.mk (Prog.send (Call.advance input ifVersion))

def delete (key : Key) (ifVersion : Nat) : Program (Option Nat) :=
  ExceptT.mk (Prog.send (Call.delete key ifVersion))

def publish (payload : Payload) : Program Event :=
  ExceptT.mk (Prog.send (Call.publish payload))

def certify (data : Verdict) (evidence : Evidence) : Program Event :=
  ExceptT.mk (Prog.send (Call.certify data evidence))

def now : Program Nat :=
  ExceptT.mk (.call .now fun time => .done (.ok time))

def measure (file : JsString) : Program (Option (JsString × Nat)) :=
  ExceptT.mk (.call (.measure file) fun measured => .done (.ok measured))

def observe : Program (Option JsString × Option Bool) :=
  ExceptT.mk (.call .observe fun observed => .done (.ok observed))

def runCommand (command : JsString) : Program CommandResult :=
  ExceptT.mk (Prog.send (Call.runCommand command))

end Program

end PiFabric.Timeline
