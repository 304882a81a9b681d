import PiFabric.Completions.Claims

/-! What each section of a store keeps, whatever befalls its writes. -/

namespace PiFabric.Completions

open Faulty

variable {spool before : Spool} {events : List Event} {id other batch : String}
  {ids quiet : List String} {desk : Desk} {calm : Bool}

/-- A section that keeps the claims wherever it stops, and returns as `post` says. -/
def Keeps (events : List Event) (before : Spool) (quiet : List String) (calm : Bool)
    {α : Type} (post : α → Desk → Prop) (section_ : Section α) (desk : Desk) : Prop :=
  Ends calm (fun value desk' => Upheld events before quiet desk' ∧ post value desk')
    (fun _ desk' => Upheld events before quiet desk') section_ desk

section
variable {α β : Type} {post post' : α → Desk → Prop} {first : Section α}

theorem Keeps.mono (h : Keeps events before quiet calm post first desk)
    (weakens : ∀ value desk', post value desk' → post' value desk')
    : Keeps events before quiet calm post' first desk :=
  Ends.mono h (fun value desk' ended => ⟨ended.1, weakens value desk' ended.2⟩) fun _ _ => id

theorem Keeps.bind {after : β → Desk → Prop} {rest : α → Section β}
    (judged : Keeps events before quiet calm post first desk)
    (second : ∀ value desk', Upheld events before quiet desk' → post value desk' →
      Keeps events before quiet calm after (rest value) desk')
    : Keeps events before quiet calm after (first >>= rest) desk :=
  Ends.bind (Ends.mono judged (fun value desk' ended => second value desk' ended.1 ended.2)
    fun _ _ => id)

theorem keeps_pure {value : α} (h : Upheld events before quiet desk) (stated : post value desk)
    : Keeps events before quiet calm post (pure value) desk :=
  ends_pure ⟨h, stated⟩

theorem keeps_get {rest : Desk → Section α} (h : Keeps events before quiet calm post (rest desk) desk)
    : Keeps events before quiet calm post (Proc.get >>= rest) desk :=
  Ends.bind (ends_get h)

theorem keeps_throw {error : Error} {rest : β → Section α} (h : Upheld events before quiet desk)
    : Keeps events before quiet calm post (Proc.throw error >>= rest) desk :=
  Ends.bind (ends_throw h)

theorem keeps_caught {handler : Error → Section α} (h : Keeps events before quiet calm post first desk)
    (handled : ∀ error desk', Upheld events before quiet desk' →
      Keeps events before quiet calm post (handler error) desk')
    : Keeps events before quiet calm post (Proc.attempt first handler) desk := by
  refine Ends.attempt (Ends.mono h (fun _ _ => id) fun thrown desk' kept => ?_)
  cases thrown with
  | threw error => exact handled error desk' kept
  | crashed => exact kept

theorem keeps_modify {change : Desk → Desk} {rest : Unit → Section α}
    (spool : (change desk).spool = desk.spool) (h : Upheld events before quiet desk)
    (next : Upheld events before quiet (change desk) →
      Keeps events before quiet calm post (rest ()) (change desk))
    : Keeps events before quiet calm post (Proc.modify change >>= rest) desk := by
  have same : Upheld events before quiet (change desk) :=
    ⟨by rw [spool]; exact h.exact_, by rw [spool]; exact h.grown, by rw [spool]; exact h.unread⟩
  exact Ends.bind (ends_modify (next same))

theorem keeps_writeSpool {post : Unit → Desk → Prop} {change : Spool → Spool}
    (h : Upheld events before quiet desk)
    (changed : Upheld events before quiet (desk.withSpool (change desk.spool)))
    (stated : post () (desk.withSpool (change desk.spool)))
    : Keeps events before quiet calm post (writeSpool change) desk := by
  refine ends_writeSpool ⟨changed, stated⟩ fun _ spool _ left => ?_
  rcases left with rfl | rfl
  · exact h
  · exact changed

theorem keeps_then {change : Spool → Spool} {rest : Unit → Section α}
    (h : Upheld events before quiet desk)
    (changed : Upheld events before quiet (desk.withSpool (change desk.spool)))
    (next : Keeps events before quiet calm post (rest ()) (desk.withSpool (change desk.spool)))
    : Keeps events before quiet calm post (writeSpool change >>= rest) desk := by
  refine Ends.bind (ends_writeSpool next fun _ spool _ left => ?_)
  rcases left with rfl | rfl
  · exact h
  · exact changed

theorem keeps_sync (post : Unit → Desk → Prop) (h : Upheld events before quiet desk)
    (stated : post () desk)
    : Keeps events before quiet calm post syncDirectoryChain desk :=
  ends_sync ⟨h, stated⟩ fun _ _ => h

end

/-- A receipt that is final names no publication that could be abandoned. -/
theorem Final.unpublished (final : Final spool id)
    : (spool.receipts id).bind Receipt.publication = none := by
  simpa [Spool.publication, final.1] using final.2

theorem keeps_rollbackAbandoned (h : Upheld events before quiet desk)
    : Keeps events before quiet calm (fun _ _ => True) (rollbackAbandoned id) desk := by
  refine keeps_get ?_
  cases abandons : desk.spool.abandons id with
  | none => exact keeps_pure h trivial
  | some abandoned =>
      have cleared : ∀ {desk : Desk}, Upheld events before quiet desk →
          Keeps events before quiet calm (fun _ _ => True)
            (writeSpool (·.putAbandon id none)) desk :=
        fun h => keeps_writeSpool h (h.frame _ rfl rfl rfl) trivial
      dsimp only
      split
      · next own =>
          have unread : Upheld events before quiet
              (desk.withSpool (desk.spool.putReceipt id (unreadReceipt id))) := by
            refine h.putReceipt .unread (fun final => ?_) (by simp [unreadReceipt, liveReceipt])
              (by simp [unreadReceipt, claimReceipt]) fun _ => received_of_receipt
                (putReceipt_self ..)
            exact absurd (final.unpublished.symm.trans own.2) (by simp)
          exact keeps_then h unread (keeps_modify rfl unread cleared)
      · exact cleared h

theorem keeps_removeEnvelope (h : Upheld events before quiet desk)
    (reason : Final desk.spool id ∨ Consumed events id)
    : Keeps events before quiet calm (fun _ desk' => ∀ other, desk'.spool.received other
        = desk.spool.received other)
      (removeEnvelope id) desk := by
  have removed := h.putEnvelope none (.inr reason)
  exact keeps_then h removed (keeps_modify rfl removed fun h => keeps_pure h fun _ => rfl)

/-- A store does not retry a failed publication of what is final, nor publish a mailbox claim. -/
structure Careful (desk : Desk) (id : String) (options : ConsumeOptions) : Prop where
  settled : options.publication = true → desk.store.uncertain id = true → ¬Final desk.spool id
  plain : options.mailbox = true → options.publication = false

structure ClaimLeft (desk desk' : Desk) (id : String) (options : ConsumeOptions) : Prop where
  received : desk'.spool.received id = true
  mailbox : options.mailbox = true → desk'.spool.receipts id = some (claimReceipt id true none)
  final : options.publication = false → desk.spool.received id = false → Final desk'.spool id
  others : ∀ other, other ≠ id → desk'.spool.received other = desk.spool.received other

variable {options : ConsumeOptions}

theorem ClaimLeft.frame {desk' : Desk} (h : ClaimLeft desk desk' id options)
    (receipts : desk'.spool.receipts = spool.receipts)
    (markers : desk'.spool.markers = spool.markers)
    : ClaimLeft desk (desk'.withSpool spool) id options where
  received := (received_congr (congrFun receipts id) markers).symm.trans h.received
  mailbox asked := (congrFun receipts id).symm.trans (h.mailbox asked)
  final plain unread := (final_congr (congrFun receipts id) markers).mp (h.final plain unread)
  others other apart :=
    (received_congr (congrFun receipts other) markers).symm.trans (h.others other apart)

theorem keeps_release {desk' : Desk} (h : Upheld events before quiet desk')
    (left : ClaimLeft desk desk' id options)
    : Keeps events before quiet calm (fun _ desk' => ClaimLeft desk desk' id options)
      (if !options.handoff then releaseResult id else pure ()) desk' := by
  split
  · exact keeps_writeSpool h (h.frame _ rfl rfl rfl) (left.frame rfl rfl)
  · exact keeps_pure h left

/-- The receipt of a claim may be written where nothing is final, or by a store that is to write
it again.
-/
theorem Upheld.putClaim (h : Upheld events before quiet desk) (careful : Careful desk id options)
    (apart : id ∉ quiet) (claimable : desk.spool.received id = true → options.mailbox = true →
      desk.spool.mailboxClaimed id = true)
    (owed : (!desk.spool.received id || desk.store.uncertain id
      || (!options.publication
        && decide (desk.spool.publication id = some desk.store.publicationId))) = true)
    : Upheld events before quiet (desk.withSpool (desk.spool.putReceipt id
      (claimReceipt id options.mailbox
        (if options.publication then some desk.store.publicationId else none)))) := by
  refine h.putReceipt ?_ (fun final => ?_) (by simp [claimReceipt, liveReceipt]) ?_
    fun member => absurd member apart
  · cases mailbox : options.mailbox with
    | false => exact .foreground _
    | true =>
        simp only [careful.plain mailbox]
        exact .mailbox
  · have plain : options.publication = false := by
      cases publication : options.publication with
      | false => rfl
      | true =>
          refine absurd final (careful.settled publication ?_)
          simpa [final.1, publication] using owed
    obtain ⟨received, publication⟩ := received_claim (putReceipt_self desk.spool id
      (claimReceipt id options.mailbox
        (if options.publication then some desk.store.publicationId else none)))
    exact ⟨received, publication.trans (by simp [plain])⟩
  · intro same ids event member
    have mailbox : options.mailbox = true := by
      simpa [claimReceipt] using congrArg Receipt.kind same
    cases received : desk.spool.received id with
    | false =>
        have final := h.exact_.claimed event member
        exact absurd (final.1.symm.trans received) (by simp)
    | true =>
        have held := h.exact_.mailbox_of_claimed (claimable received mailbox)
        exact h.exact_.mailbox held event member

theorem keeps_consume (h : Upheld events before quiet desk) (careful : Careful desk id options)
    (apart : id ∉ quiet)
    : Keeps events before quiet calm
      (fun _ desk' => validId id = true → ClaimLeft desk desk' id options)
      (consume id options) desk := by
  unfold consume
  split
  · next invalid =>
      refine keeps_pure h fun valid => ?_
      simp [valid] at invalid
  · refine keeps_get ?_
    dsimp only
    split
    · exact keeps_throw h
    · next claimable =>
        have claimable : desk.spool.received id = true → options.mailbox = true →
            desk.spool.mailboxClaimed id = true := by simpa using claimable
        split
        · next owed =>
            have put := h.putClaim careful apart claimable owed
            have written := putReceipt_self desk.spool id (claimReceipt id options.mailbox
              (if options.publication then some desk.store.publicationId else none))
            obtain ⟨received, publication⟩ := received_claim written
            refine keeps_modify rfl h fun h => keeps_then h ⟨put.exact_, put.grown, put.unread⟩
              (keeps_modify rfl ⟨put.exact_, put.grown, put.unread⟩ fun put => ?_)
            refine (keeps_release put (?_ : ClaimLeft desk _ id options)).mono
              fun _ _ left _ => left
            refine ⟨received, fun mailbox => ?_, fun plain _ => ?_,
              fun other apart => received_of_ne apart _⟩
            · exact written.trans (by rw [mailbox, careful.plain mailbox]; rfl)
            · exact ⟨received, publication.trans (by simp [plain])⟩
        · next settled =>
            simp only [Bool.or_eq_true, not_or, Bool.not_eq_true, Bool.not_eq_false'] at settled
            have received := settled.1.1
            refine .bind (keeps_sync (fun _ desk' => desk' = desk) h rfl)
              fun _ desk' h same => ?_
            subst same
            refine (keeps_release h ⟨received, fun mailbox => ?_, fun _ unread => ?_,
              fun _ _ => rfl⟩).mono fun _ _ left _ => left
            · exact h.exact_.mailbox_of_claimed (claimable received mailbox)
            · exact absurd (received.symm.trans unread) (by simp)

theorem keeps_enqueue {result : ActorChildResult} {spawner : AgentSpawner} {notify : Bool}
    (h : Upheld events before quiet desk)
    : Keeps events before quiet calm (fun _ _ => True) (enqueue result spawner notify) desk := by
  refine .bind (keeps_rollbackAbandoned h) fun _ desk h _ => keeps_get ?_
  dsimp only
  split
  · exact keeps_sync _ h trivial
  · split
    · exact keeps_sync _ h trivial
    · have archived := h.frame (desk.spool.putResult result.id (some (result, spawner)))
        rfl rfl rfl
      refine keeps_then h archived ?_
      split
      · exact keeps_writeSpool archived (archived.putEnvelope _ (.inl rfl)) trivial
      · exact keeps_pure archived trivial

/-- No receipt that names the batch is of another id. -/
def Alone (spool : Spool) (ids : List String) : Prop :=
  ∀ batch ∈ ids.head?, ∀ {id receipt}, spool.receipts id = some receipt →
    receipt.batchId = some batch → id ∈ ids

structure Batched (desk desk' : Desk) (ids : List String) : Prop where
  unread : ∀ id ∈ ids, desk.spool.received id = false
  final : ∀ id ∈ ids, Final desk'.spool id
  live : ∀ id ∈ ids, ∃ batch, desk'.spool.receipts id = some (liveReceipt id batch)

/-- The receipts of a batch up to those that are still to be staged. -/
structure Staged (spool : Spool) (ids : List String) (batch : String) (rest : List String)
    : Prop where
  bare : spool.markers batch = none
  alone : ∀ {id}, spool.receipts id = some (liveReceipt id batch) → id ∈ ids
  done : ∀ id ∈ ids, id ∈ rest ∨ spool.receipts id = some (liveReceipt id batch)
  unread : ∀ id ∈ ids, spool.received id = false

theorem Staged.put {rest : List String} (h : Staged spool ids batch (id :: rest))
    (valid : validId batch) (member : id ∈ ids)
    : Staged (spool.putReceipt id (liveReceipt id batch)) ids batch rest := by
  have held := putReceipt_self spool id (liveReceipt id batch)
  refine ⟨h.bare, fun {other} found => ?_, fun other listed => ?_, fun other listed => ?_⟩
  · by_cases same : other = id
    · exact same ▸ member
    · exact h.alone ((Function.update_of_ne same ..).symm.trans found)
  · by_cases same : other = id
    · exact .inr (same ▸ held)
    · refine (h.done other listed).imp (fun left => ?_) (Function.update_of_ne same ..).trans
      exact (List.mem_cons.mp left).resolve_left same
  · by_cases same : other = id
    · subst same
      rw [received_live valid held]
      exact congrArg Option.isSome h.bare
    · exact (received_of_ne same _).trans (h.unread other listed)

theorem Exact.putMarker (exact_ : Exact spool events) (staged : Staged spool ids batch [])
    (valid : validId batch) (first : batch ∈ ids)
    : Exact (spool.putMarker batch (some ids)) events
      ∧ ∀ id, Final spool id ∨ id ∈ ids → Final (spool.putMarker batch (some ids)) id := by
  have live : ∀ id ∈ ids, spool.receipts id = some (liveReceipt id batch) := by
    intro id member
    simpa using staged.done id member
  have marked : (spool.putMarker batch (some ids)).markers batch = some ids :=
    Function.update_self ..
  have claimed : ∀ id ∈ ids, Final (spool.putMarker batch (some ids)) id :=
    fun id member => final_live valid (live id member) (by rw [marked]; rfl)
  have other : ∀ {id}, id ∉ ids → Final spool id → Final (spool.putMarker batch (some ids)) id := by
    intro id apart final
    cases held : spool.receipts id with
    | none => simp [Final, Spool.received, held] at final
    | some receipt =>
        have held' : (spool.putMarker batch (some ids)).receipts id = some receipt := held
        cases exact_.wf held with
        | unread =>
            have := final.1
            simp [received_of_receipt held, unreadReceipt] at this
        | foreground publication =>
            have := (received_claim held).2.symm.trans final.2
            exact ⟨(received_claim held').1, (received_claim held').2.trans this⟩
        | mailbox => exact ⟨(received_claim held').1, (received_claim held').2⟩
        | @live named validated =>
            have there := (received_live validated held).symm.trans final.1
            refine final_live validated held' ?_
            by_cases same : named = batch
            · subst same
              rw [staged.bare] at there
              cases there
            · rw [show (spool.putMarker batch (some ids)).markers named = spool.markers named from
                Function.update_of_ne same ..]
              exact there
  have stays : ∀ id, Final spool id ∨ id ∈ ids → Final (spool.putMarker batch (some ids)) id := by
    intro id known
    by_cases member : id ∈ ids
    · exact claimed id member
    · exact other member (known.resolve_right member)
  have found : ∀ {named listed}, (spool.putMarker batch (some ids)).markers named = some listed →
      named = batch ∧ listed = ids ∨ spool.markers named = some listed := by
    intro named listed there
    by_cases same : named = batch
    · subst same
      exact .inl ⟨rfl, Option.some.inj (there.symm.trans marked)⟩
    · exact .inr ((Function.update_of_ne same ..).symm.trans there)
  refine ⟨⟨exact_.wf, fun there => ?_, fun there id member => stays id ?_,
    fun there held => ?_, fun event claims => stays _ (.inl (exact_.claimed event claims)),
    exact_.mailbox⟩, stays⟩
  · rcases found there with ⟨rfl, rfl⟩ | old
    · exact first
    · exact exact_.listed old
  · rcases found there with ⟨rfl, rfl⟩ | old
    · exact .inr member
    · exact .inl (exact_.final old id member)
  · rcases found there with ⟨rfl, rfl⟩ | old
    · exact staged.alone held
    · exact exact_.staged old held

/-- A marker that was not there is withdrawn again. -/
theorem Upheld.withdraw (h : Upheld events before quiet desk)
    (bare : desk.spool.markers batch = none) (marker : Option (List String))
    : Upheld events before quiet
      (desk.withSpool ((desk.spool.putMarker batch marker).putMarker batch none)) := by
  refine h.frame _ rfl ?_ rfl
  funext other
  by_cases same : other = batch
  · subst same
    simp [Spool.putMarker, bare]
  · simp [Spool.putMarker, same]

theorem keeps_withdraw {error : Error} (h : Upheld events before quiet desk)
    (withdrawn : Upheld events before quiet (desk.withSpool (desk.spool.putMarker batch none)))
    {post : Unit → Desk → Prop}
    : Keeps events before quiet calm post (do
        writeSpool (·.putMarker batch none)
        syncDirectoryChain
        Proc.throw error) desk :=
  keeps_then h withdrawn (.bind (keeps_sync (fun _ _ => True) withdrawn trivial)
    fun _ _ h _ => ends_throw h)

theorem keeps_commit (h : Upheld events before [] desk) (staged : Staged desk.spool ids batch [])
    (valid : validId batch) (first : batch ∈ ids)
    : Keeps events before [] calm
      (fun _ desk' => (∀ id ∈ ids, Final desk'.spool id)
        ∧ ∀ id ∈ ids, desk'.spool.receipts id = some (liveReceipt id batch))
      (Proc.attempt (writeSpool (·.putMarker batch (some ids))) fun error => do
        writeSpool (·.putMarker batch none)
        syncDirectoryChain
        Proc.throw error) desk := by
  obtain ⟨exact_, final⟩ := h.exact_.putMarker staged valid first
  have put : Upheld events before [] (desk.withSpool (desk.spool.putMarker batch (some ids))) := by
    refine ⟨exact_, h.grown.trans ⟨fun id known => final id (.inl known), fun _ => .inl⟩, ?_⟩
    simp
  have unmarked : Upheld events before []
      (desk.withSpool (desk.spool.putMarker batch none)) := by
    simpa [Spool.putMarker] using h.withdraw staged.bare none
  refine Ends.attempt (ends_writeSpool ⟨put, fun id member => final id (.inr member), ?_⟩ ?_)
  · intro id member
    exact (staged.done id member).resolve_left (by simp)
  · intro _ spool thrown left
    rcases left with rfl | rfl
    · cases thrown with
      | threw error => exact keeps_withdraw h unmarked
      | crashed => exact h
    · cases thrown with
      | threw error => exact keeps_withdraw put (h.withdraw staged.bare (some ids))
      | crashed => exact put

theorem keeps_stage (h : Upheld events before [] desk) (valid : validId batch)
    (start : Staged desk.spool ids batch ids)
    : Keeps events before [] calm (fun _ desk' => Staged desk'.spool ids batch [])
      (Proc.each (fun id => writeSpool (·.putReceipt id (liveReceipt id batch))) ids) desk := by
  refine Ends.mono (ends_each (fun rest (desk' : Desk) => Upheld events before [] desk'
    ∧ Staged desk'.spool ids batch rest ∧ ∀ id ∈ rest, id ∈ ids)
    (fun id rest desk' round => ?_) ⟨h, start, fun _ member => member⟩)
    (fun _ _ ended => ⟨ended.1, ended.2.1⟩) fun _ _ kept => kept
  · obtain ⟨h, staged, within⟩ := round
    have member := within id List.mem_cons_self
    have unread := staged.unread id member
    have put := @h.putReceipt _ _ id _ _ _ (.live valid)
      (fun final => absurd (final.1.symm.trans unread) (by simp))
      (fun same marked => ?_) (by simp [liveReceipt, claimReceipt]) (by simp)
    · have within' : ∀ id ∈ rest, id ∈ ids := fun id member =>
        within id (List.mem_cons_of_mem _ member)
      refine ends_writeSpool ⟨put, staged.put valid member, within'⟩ fun _ spool _ left => ?_
      rcases left with rfl | rfl
      · exact h
      · exact put
    · cases same
      exact absurd (staged.bare.symm.trans marked) (by simp)

theorem keeps_consumeLiveBatch (h : Upheld events before [] desk) (alone : Alone desk.spool ids)
    : Keeps events before [] calm (fun _ desk' => Batched desk desk' ids)
      (consumeLiveBatch ids) desk := by
  unfold consumeLiveBatch
  split
  · exact ends_throw h
  · next valid =>
      have valid : ∀ id ∈ ids, validId id := by simpa using valid
      split
      · next empty =>
          cases List.head?_eq_none_iff.mp empty
          exact keeps_pure h ⟨by simp, by simp, by simp⟩
      · next batch head =>
          have first : batch ∈ ids := List.mem_of_head? head
          refine keeps_get ?_
          dsimp only
          split
          · exact keeps_throw h
          · next lost =>
              have unread : ∀ id ∈ ids, desk.spool.received id = false := by simpa using lost
              have start : Staged desk.spool ids batch ids :=
                ⟨h.exact_.unmarked (unread batch first),
                  fun held => alone batch head held rfl, fun id member => .inl member, unread⟩
              refine .bind (keeps_stage h (valid batch first) start) fun _ desk' h staged => ?_
              exact (keeps_commit h staged (valid batch first) first).mono
                fun _ _ ended => ⟨unread, ended.1, fun id member => ⟨batch, ended.2 id member⟩⟩

end PiFabric.Completions
