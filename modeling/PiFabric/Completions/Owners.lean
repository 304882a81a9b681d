import PiFabric.Completions.Pending
import PiFabric.Foundation.Interleaving

/-! The owners of one spool. A section under the claim lock is one step, in which any write may
fail or the owner may crash; what an owner does outside of the lock are steps of their own.
-/

namespace PiFabric.Completions

open Faulty (Fault Stop Proc)
open Interleaving (Prog Config Run)

structure World (ι : Type) where
  spool : Spool
  session : Option JsString
  stores : ι → Store
  alive : ι → Bool
  events : List Event

inductive Thread (ι : Type)
  | owner (self : ι)
  /-- The session writes its own file. -/
  | session
  deriving DecidableEq

inductive Call
  | enqueue (result : ActorChildResult) (spawner : AgentSpawner) (notify : Bool)
  | consume (id : String) (options : ConsumeOptions)
  | consumeLiveBatch (ids : List String)
  | rollback (id : String)
  /-- Keeps the intent to abandon, without the lock. -/
  | intend (id : String)
  | removeEnvelope (id : String)
  /-- The rest of a discard, whose receipt is durable. -/
  | discarded (id : String)
  | scan (options : PendingOptions)
  | pending (options : PendingOptions)
  | writeSession (text : Option JsString)

def Answer : Call → Type
  | .intend _ | .scan _ => Bool
  | .pending _ => List ActorChildCompletion
  | _ => Unit

abbrev Reply (call : Call) : Type :=
  Except Error (Answer call)

namespace Call

def locked : Call → Bool
  | .enqueue .. | .consume .. | .consumeLiveBatch _ | .rollback _ | .pending _ => true
  | _ => false

def lists : Call → Bool
  | .scan _ | .pending _ => true
  | _ => false

/-- The intent of an abandon is not contested, and not made of what was consumed. -/
def intention (id : String) : Section Bool := do
  let desk ← Proc.get
  if desk.store.consumed id then return false
  writeSpool (·.putAbandon id (some ⟨id, desk.store.publicationId⟩))
  return true

/-- The cleanup of a discard may fail. -/
def cleanup (id : String) : Section Unit := do
  Proc.modify (·.setConsumed id)
  Proc.attempt (do
    writeSpool (·.putEnvelope id none)
    releaseResult id
    Proc.modify (·.setChecked id none)) fun _ => return ()

def body (listing : Listing) : (call : Call) → Section (Answer call)
  | .enqueue result spawner notify =>
      Proc.andThen (checkIdentity result spawner) fun _ => Completions.enqueue result spawner notify
  | .consume id options => Completions.consume id options
  | .consumeLiveBatch ids => Completions.consumeLiveBatch ids
  | .rollback id => rollbackAbandoned id
  | .intend id => intention id
  | .removeEnvelope id => Completions.removeEnvelope id
  | .discarded id => cleanup id
  | .scan options => Proc.andThen Proc.get fun desk =>
      Proc.return_ (hasPendingWork options listing desk.spool)
  | .pending options => Completions.pending options listing
  | .writeSession _ => Proc.return_ ()

def claims : Call → List Event
  | .consume id options => if validId id then [.consumed id options.mailbox] else []
  | .consumeLiveBatch ids => [.batch ids]
  | _ => []

end Call

/-- A listing of what is there, in any order. -/
structure Listed (spool : Spool) (listing : Listing) : Prop where
  distinct : listing.envelopes.Nodup
  envelopes : ∀ id, id ∈ listing.envelopes ↔ validId id = true ∧ (spool.envelopes id).isSome
  abandons : ∀ id, id ∈ listing.abandons ↔ validId id = true ∧ (spool.abandons id).isSome

variable {ι : Type} [DecidableEq ι]

namespace World
variable (w : World ι)

omit [DecidableEq ι] in
def desk (self : ι) : Desk :=
  ⟨w.spool, w.session, w.stores self⟩

def left (self : ι) (desk : Desk) (fresh : List Event) : World ι :=
  { w with
    spool := desk.spool
    stores := Function.update w.stores self desk.store
    events := fresh ++ w.events }

/-- What a call replies and leaves; an owner that crashed makes no more calls. -/
def finish (self : ι) (call : Call)
    : Except (Stop Error) (Answer call) × Desk × List (Option Fault) → Reply call × World ι
  | (.ok answer, desk, _) => (.ok answer, w.left self desk call.claims)
  | (.error (.threw error), desk, _) => (.error error, w.left self desk [])
  | (.error .crashed, desk, _) =>
      (.error .io, { w.left self desk [] with alive := Function.update w.alive self false })

def act (self : ι) (call : Call) (listing : Listing) (faults : List (Option Fault))
    : Reply call × World ι :=
  w.finish self call (call.body listing faults (w.desk self))

end World

inductive Performs : Thread ι → World ι → (call : Call) → Reply call → World ι → Prop
  | acted {self : ι} {w w' : World ι} {call : Call} {reply : Reply call} {listing : Listing}
      {faults : List (Option Fault)} (alive : w.alive self = true)
      (listed : call.lists = true → Listed w.spool listing)
      (done : w.act self call listing faults = (reply, w'))
      : Performs (.owner self) w call reply w'
  | busy {self : ι} {w : World ι} {call : Call} (alive : w.alive self = true)
      (locked : call.locked = true)
      : Performs (.owner self) w call
        (.error (.message "Actor child completion claim is busy")) w
  | wrote {w : World ι} (text : Option JsString)
      : Performs .session w (.writeSession text) (.ok ()) { w with session := text }

/-- A batch is claimed only while no other id is staged under its name, and a failed publication
is not retried on a final claim.
-/
def CarefulCall (w : World ι) : Thread ι → Call → Prop
  | .owner self, .consume id options => Careful (w.desk self) id options
  | .owner _, .consumeLiveBatch ids => Alone w.spool ids
  | _, _ => True

def CarefullyPerforms (thread : Thread ι) (w : World ι) (call : Call) (reply : Reply call)
    (w' : World ι) : Prop :=
  Performs thread w call reply w' ∧ CarefulCall w thread call

abbrev Owner (α : Type) : Type :=
  Prog Call Reply α

def ask (call : Call) : Owner (Reply call) :=
  Prog.send call

/-- A claim, and what follows it unless it threw. -/
def claimThen (id : String) (options : ConsumeOptions) (call : Call) : Owner Unit := do
  match ← ask (.consume id options) with
  | .ok _ => let _ ← ask call
  | .error _ => return ()

inductive Api
  | enqueue (result : ActorChildResult) (spawner : AgentSpawner) (notify : Bool)
  | consume (id : String) (options : ConsumeOptions)
  | acknowledge (id : String) (handoff : Bool)
  | discard (id : String)
  | abandonForeground (id : String)
  | consumeLiveBatch (ids : List String)
  | pending (options : PendingOptions)

def Api.run : Api → Owner Unit
  | .enqueue result spawner notify => do let _ ← ask (.enqueue result spawner notify)
  | .consume id options => do let _ ← ask (.consume id options)
  | .acknowledge id handoff => do
      if !validId id then return ()
      claimThen id { handoff := handoff, mailbox := handoff } (.removeEnvelope id)
  | .discard id => do
      if !validId id then return ()
      claimThen id { handoff := true } (.discarded id)
  | .abandonForeground id => do
      if !validId id then return ()
      match ← ask (.intend id) with
      | .ok true => let _ ← ask (.rollback id)
      | .ok false | .error _ => return ()
  | .consumeLiveBatch ids => do let _ ← ask (.consumeLiveBatch ids)
  | .pending options => do
      match ← ask (.scan options) with
      | .ok true =>
          match ← ask (.scan options) with
          | .ok true => let _ ← ask (.pending options)
          | .ok false | .error _ => return ()
      | .ok false | .error _ => return ()

/-- One call after another, whatever comes of each. -/
def history : List Api → Owner Unit
  | [] => return ()
  | call :: rest => do
      call.run
      history rest

def writeSessions : List (Option JsString) → Owner Unit
  | [] => return ()
  | text :: rest => do
      let _ ← ask (.writeSession text)
      writeSessions rest

abbrev SpoolConfig (ι : Type) : Type :=
  Config (Thread ι) (World ι) Call Reply Unit

structure Parties (ι : Type) where
  publicationId : ι → String
  work : ι → List Api
  sessions : List (Option JsString)

/-- An empty spool, and what each owner is going to call. -/
def Parties.start (parties : Parties ι) : SpoolConfig ι where
  world := ⟨.empty, none, fun self => .new (parties.publicationId self), fun _ => true, []⟩
  threads
    | .owner self => history (parties.work self)
    | .session => writeSessions parties.sessions

/-- The steps of owners in turn, where nothing is listed. -/
def decideCall (thread : Thread ι) (w : World ι) (call : Call) (faults : List (Option Fault))
    : Option (Reply call × World ι) :=
  match thread with
  | .owner self =>
      if w.alive self ∧ call.lists = false then some (w.act self call ⟨[], []⟩ faults) else none
  | .session => none

theorem performs_of_decideCall {thread : Thread ι} {w w' : World ι} {call : Call}
    {faults : List (Option Fault)} {reply : Reply call}
    (h : decideCall thread w call faults = some (reply, w'))
    : Performs thread w call reply w' := by
  cases thread with
  | session => cases h
  | owner self =>
      simp only [decideCall] at h
      split at h
      · next may =>
          refine .acted may.1 (fun lists => ?_) (Option.some.inj h)
          exact absurd (may.2.symm.trans lists) (by simp)
      · cases h

end PiFabric.Completions
