import PiFabric.Completions.Spool

/-! What a spool holds of its claims, and which writes keep it: a receipt is unread, a foreground
or mailbox claim, or staged by a live batch, and a marker lists every id whose receipt names its
batch.
-/

namespace PiFabric.Completions

open Faulty

inductive Event
  | batch (ids : List String)
  | consumed (id : String) (mailbox : Bool)
  deriving DecidableEq

def Event.claims (id : String) : Event → Prop
  | .batch ids => id ∈ ids
  | .consumed other mailbox => other = id ∧ mailbox = true

variable {spool before after : Spool} {events : List Event} {id other batch : String}
  {ids : List String} {receipt : Receipt} {desk : Desk} {calm : Bool}

def unreadReceipt (id : String) : Receipt :=
  ⟨id, none, none, none, true⟩

inductive WellFormed (id : String) : Receipt → Prop
  | unread : WellFormed id (unreadReceipt id)
  | foreground (publication : Option String) : WellFormed id (claimReceipt id false publication)
  | mailbox : WellFormed id (claimReceipt id true none)
  | live {batch : String} (valid : validId batch) : WellFormed id (liveReceipt id batch)

/-- A claim that cannot be abandoned any more. -/
def Final (spool : Spool) (id : String) : Prop :=
  spool.received id = true ∧ spool.publication id = none

theorem received_of_receipt (h : spool.receipts id = some receipt)
    : spool.received id = (!receipt.unread && spool.batchCommitted receipt.batchId) := by
  simp [Spool.received, h]

theorem received_live (valid : validId batch) (h : spool.receipts id = some (liveReceipt id batch))
    : spool.received id = (spool.markers batch).isSome := by
  have named : batch ≠ "" := by
    rintro rfl
    exact absurd valid (by decide)
  rw [received_of_receipt h]
  simp only [liveReceipt, Bool.not_false, Bool.true_and]
  unfold Spool.batchCommitted
  split
  · contradiction
  · next same => exact absurd (Option.some.inj same) named
  · next same =>
      cases same
      simp [valid]

theorem received_claim {mailbox : Bool} {publication : Option String}
    (h : spool.receipts id = some (claimReceipt id mailbox publication))
    : spool.received id = true ∧ spool.publication id = publication := by
  have received : spool.received id = true := by
    rw [received_of_receipt h]
    rfl
  exact ⟨received, by simp [Spool.publication, received, h, claimReceipt]⟩

theorem final_live (valid : validId batch) (h : spool.receipts id = some (liveReceipt id batch))
    (marked : (spool.markers batch).isSome)
    : Final spool id := by
  have received := (received_live valid h).trans marked
  exact ⟨received, by simp [Spool.publication, received, h, liveReceipt]⟩

theorem received_congr (receipts : before.receipts id = after.receipts id)
    (markers : before.markers = after.markers)
    : before.received id = after.received id := by
  simp only [Spool.received, Spool.batchCommitted, receipts, markers]

theorem final_congr (receipts : before.receipts id = after.receipts id)
    (markers : before.markers = after.markers)
    : Final before id ↔ Final after id := by
  simp only [Final, Spool.publication, received_congr receipts markers, receipts]

theorem received_of_ne (apart : other ≠ id) (receipt : Receipt)
    : (spool.putReceipt id receipt).received other = spool.received other :=
  received_congr (Function.update_of_ne apart ..) rfl

theorem final_of_ne (apart : other ≠ id) (receipt : Receipt)
    : Final (spool.putReceipt id receipt) other ↔ Final spool other :=
  final_congr (Function.update_of_ne apart ..) rfl

@[simp]
theorem putReceipt_self (spool : Spool) (id : String) (receipt : Receipt)
    : (spool.putReceipt id receipt).receipts id = some receipt :=
  Function.update_self ..

structure Exact (spool : Spool) (events : List Event) : Prop where
  wf : ∀ {id receipt}, spool.receipts id = some receipt → WellFormed id receipt
  listed : ∀ {batch ids}, spool.markers batch = some ids → batch ∈ ids
  final : ∀ {batch ids}, spool.markers batch = some ids → ∀ id ∈ ids, Final spool id
  staged : ∀ {batch ids id}, spool.markers batch = some ids →
    spool.receipts id = some (liveReceipt id batch) → id ∈ ids
  claimed : ∀ {event id}, event ∈ events → event.claims id → Final spool id
  mailbox : ∀ {id ids}, spool.receipts id = some (claimReceipt id true none) →
    .batch ids ∈ events → id ∉ ids

theorem Exact.empty : Exact .empty [] where
  wf h := nomatch h
  listed h := nomatch h
  final h := nomatch h
  staged h := nomatch h
  claimed h := nomatch h
  mailbox h := nomatch h

theorem Exact.mailbox_of_claimed (exact_ : Exact spool events)
    (claimed : spool.mailboxClaimed id = true)
    : spool.receipts id = some (claimReceipt id true none) := by
  simp only [Spool.mailboxClaimed, Bool.and_eq_true, Option.any_eq_true] at claimed
  obtain ⟨received, receipt, held, kind⟩ := claimed
  cases exact_.wf held with
  | unread =>
      rw [received_of_receipt held] at received
      simp [unreadReceipt] at received
  | foreground | live => simp [claimReceipt, liveReceipt] at kind
  | mailbox => exact held

theorem Exact.congr (exact_ : Exact before events) (receipts : before.receipts = after.receipts)
    (markers : before.markers = after.markers)
    : Exact after events := by
  have same : ∀ id, Final before id ↔ Final after id :=
    fun id => final_congr (congrFun receipts id) markers
  refine ⟨fun held => ?_, fun marked => ?_, fun marked id member => (same id).mp ?_,
    fun marked held => ?_, fun event claims => (same _).mp ?_, fun held => ?_⟩
  · exact exact_.wf (receipts ▸ held)
  · exact exact_.listed (markers ▸ marked)
  · exact exact_.final (markers ▸ marked) id member
  · exact exact_.staged (markers ▸ marked) (receipts ▸ held)
  · exact exact_.claimed event claims
  · exact exact_.mailbox (receipts ▸ held)

/-- Whether a batch has a marker tells whether its first id was received. -/
theorem Exact.unmarked (exact_ : Exact spool events) (unread : spool.received batch = false)
    : spool.markers batch = none := by
  cases marked : spool.markers batch with
  | none => rfl
  | some ids =>
      have final := exact_.final marked batch (exact_.listed marked)
      exact absurd (final.1.symm.trans unread) (by simp)

/-- A receipt is written where none is final, or that stays so. -/
theorem Exact.putReceipt (exact_ : Exact spool events) (wf : WellFormed id receipt)
    (final : Final spool id → Final (spool.putReceipt id receipt) id)
    (staged : ∀ {batch ids}, receipt = liveReceipt id batch → spool.markers batch = some ids →
      id ∈ ids)
    (mailbox : receipt = claimReceipt id true none → ∀ ids, .batch ids ∈ events → id ∉ ids)
    : Exact (spool.putReceipt id receipt) events := by
  have stays : ∀ other, Final spool other → Final (spool.putReceipt id receipt) other := by
    intro other known
    by_cases same : other = id
    · exact same ▸ final (same ▸ known)
    · exact (final_of_ne same receipt).mpr known
  have found : ∀ {other found}, (spool.putReceipt id receipt).receipts other = some found →
      other = id ∧ found = receipt ∨ spool.receipts other = some found := by
    intro other found held
    by_cases same : other = id
    · subst same
      exact .inl ⟨rfl, Option.some.inj (held.symm.trans (putReceipt_self ..))⟩
    · exact .inr ((Function.update_of_ne same ..).symm.trans held)
  refine ⟨fun held => ?_, exact_.listed, fun marked id member => stays id ?_,
    fun marked held => ?_, fun event claims => stays _ (exact_.claimed event claims),
    fun {other _} held event => ?_⟩
  · rcases found held with ⟨rfl, rfl⟩ | old
    · exact wf
    · exact exact_.wf old
  · exact exact_.final marked id member
  · rcases found held with ⟨rfl, same⟩ | old
    · exact staged same.symm marked
    · exact exact_.staged marked old
  · rcases found held with ⟨rfl, same⟩ | old
    · exact mailbox same.symm _ event
    · exact exact_.mailbox old event

/-- A store has returned from consuming the id. -/
def Consumed (events : List Event) (id : String) : Prop :=
  ∃ mailbox, .consumed id mailbox ∈ events

/-- Final claims stay; an envelope is removed of what is final or was consumed. -/
structure Grown (events : List Event) (before after : Spool) : Prop where
  final : ∀ id, Final before id → Final after id
  envelope : ∀ id, (before.envelopes id).isSome →
    (after.envelopes id).isSome ∨ Final after id ∨ Consumed events id

theorem Grown.refl (events : List Event) (spool : Spool) : Grown events spool spool :=
  ⟨fun _ => id, fun _ => .inl⟩

theorem Grown.trans {third : Spool} (hf : Grown events before after)
    (hs : Grown events after third)
    : Grown events before third where
  final id known := hs.final id (hf.final id known)
  envelope id there := by
    rcases hf.envelope id there with stays | final | consumed
    · exact hs.envelope id stays
    · exact .inr (.inl (hs.final id final))
    · exact .inr (.inr consumed)

/-- What holds wherever a store stops, since its section began, with ids that stay unread. -/
structure Upheld (events : List Event) (before : Spool) (quiet : List String) (desk : Desk)
    : Prop where
  exact_ : Exact desk.spool events
  grown : Grown events before desk.spool
  unread : ∀ id ∈ quiet, desk.spool.received id = false

/-- A write keeps what is upheld, whatever befalls it. -/
theorem ends_writeSpool {post : Unit → Desk → Prop} {stop : Stop Error → Desk → Prop}
    {change : Spool → Spool} (h : post () (desk.withSpool (change desk.spool)))
    (stops : calm = false → ∀ spool error, spool = desk.spool ∨ spool = change desk.spool →
      stop error (desk.withSpool spool))
    : Ends calm post stop (writeSpool change) desk := by
  refine ends_write h fun wild s' left => ?_
  rcases left with rfl | rfl
  · exact ⟨stops wild _ _ (.inl rfl), stops wild _ _ (.inl rfl)⟩
  · exact ⟨stops wild _ _ (.inr rfl), stops wild _ _ (.inr rfl)⟩

theorem ends_sync {post : Unit → Desk → Prop} {stop : Stop Error → Desk → Prop}
    (h : post () desk) (stops : calm = false → ∀ error, stop error desk)
    : Ends calm post stop syncDirectoryChain desk := by
  refine ends_write h fun wild s' left => ?_
  rcases left with rfl | rfl <;> exact ⟨stops wild _, stops wild _⟩

variable {quiet : List String}

/-- A write of what no claim depends on. -/
theorem Upheld.frame (h : Upheld events before quiet desk) (spool : Spool)
    (receipts : desk.spool.receipts = spool.receipts) (markers : desk.spool.markers = spool.markers)
    (envelopes : desk.spool.envelopes = spool.envelopes)
    : Upheld events before quiet (desk.withSpool spool) where
  exact_ := h.exact_.congr receipts markers
  grown := h.grown.trans
    ⟨fun id => (final_congr (congrFun receipts id) markers).mp,
      fun id there => .inl (show (spool.envelopes id).isSome by rw [← envelopes]; exact there)⟩
  unread id member :=
    (received_congr (congrFun receipts id) markers).symm.trans (h.unread id member)

theorem Upheld.putEnvelope (h : Upheld events before quiet desk)
    (envelope : Option ActorChildCompletion)
    (reason : envelope.isSome ∨ Final desk.spool id ∨ Consumed events id)
    : Upheld events before quiet (desk.withSpool (desk.spool.putEnvelope id envelope)) where
  exact_ := h.exact_.congr rfl rfl
  grown := h.grown.trans ⟨fun _ known => known, fun other there => by
    by_cases same : other = id
    · subst same
      rcases reason with added | final | consumed
      · exact .inl (by simpa [Desk.withSpool, Spool.putEnvelope] using added)
      · exact .inr (.inl final)
      · exact .inr (.inr consumed)
    · exact .inl (by simpa [Desk.withSpool, Spool.putEnvelope, same] using there)⟩
  unread := h.unread

theorem Upheld.putReceipt (h : Upheld events before quiet desk) (wf : WellFormed id receipt)
    (final : Final desk.spool id → Final (desk.spool.putReceipt id receipt) id)
    (staged : ∀ {batch ids}, receipt = liveReceipt id batch →
      desk.spool.markers batch = some ids → id ∈ ids)
    (mailbox : receipt = claimReceipt id true none → ∀ ids, .batch ids ∈ events → id ∉ ids)
    (unread : id ∈ quiet → (desk.spool.putReceipt id receipt).received id = false)
    : Upheld events before quiet (desk.withSpool (desk.spool.putReceipt id receipt)) where
  exact_ := h.exact_.putReceipt wf final staged mailbox
  grown := h.grown.trans ⟨fun other known => by
    by_cases same : other = id
    · exact same ▸ final (same ▸ known)
    · exact (final_of_ne same receipt).mpr known, fun _ => .inl⟩
  unread other member := by
    by_cases same : other = id
    · exact same ▸ unread (same ▸ member)
    · exact (received_of_ne same receipt).trans (h.unread other member)

end PiFabric.Completions
