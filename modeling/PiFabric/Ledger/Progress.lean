import PiFabric.Ledger.Recovery

/-! Records move forward along a run: an update raises the state or leaves it, and neither a
compaction nor a death with its reopen loses or changes a record that has not expired.
-/

namespace PiFabric.Ledger

open JsString LineLog Memory Outcome
open Json (Members)

variable {r : Members}

theorem validState_of_valid (valid : validCommand r = true)
    : validState r = true := by
  simp only [validCommand, Bool.and_eq_true] at valid
  exact valid.2

/-- A valid record has an ACK exactly where its state says so. -/
theorem ack_iff_of_valid (valid : validCommand r = true)
    : (r.get? "ack").isSome = true
      ↔ stateOf r = some .acked ∨ stateOf r = some .ackForwarded := by
  have state := validState_of_valid valid
  simp only [validState, Bool.and_eq_true, beq_iff_eq] at state
  rw [← state.1.1, Bool.or_eq_true, decide_eq_true_eq, decide_eq_true_eq]

theorem stateOf_assign_state {state : CommandState} {rest : List (String × Json)}
    (other : rest.all (fun change => lit "state" ≠ lit change.1) = true)
    : stateOf (r.assign (stateChange state :: rest)) = some state := by
  have set : (r.assign (stateChange state :: rest)).get? "state" = some (.string state.name) :=
    @Members.get?_assign_last "state" _ r [] rest other
  rw [stateOf, set, CommandState.of?_name]

theorem rankOf_of_state {state : CommandState} (h : stateOf r = some state)
    : rankOf r = state.rank := by
  rw [rankOf, h]

theorem rankOf_le (r : Members) : rankOf r ≤ CommandState.ackForwarded.rank := by
  unfold rankOf
  split
  · next state _ => cases state <;> decide
  · exact Nat.zero_le _

/-- A valid record without an ACK is below `acked`. -/
theorem rankOf_le_of_no_ack (valid : validCommand r = true) (absent : r.get? "ack" = none)
    : rankOf r ≤ CommandState.acked.rank := by
  have neither : ¬(stateOf r = some .acked ∨ stateOf r = some .ackForwarded) := by
    rw [← ack_iff_of_valid valid, absent]
    simp
  obtain ⟨-, notForwarded⟩ := not_or.mp neither
  unfold rankOf
  split
  · next state at_ =>
      cases state with
      | ackForwarded => exact absurd at_ notForwarded
      | _ => decide
  · exact Nat.zero_le _

/-- A change that names neither the ACK nor the destination id of a record moves it forward
where its rank does.
-/
theorem forward_of_untouched {changes : List (String × Json)}
    (named : ∀ change ∈ changes, change.1 ∈ changedFields)
    (rank : rankOf r ≤ rankOf (r.assign changes)) (ack : (r.get? "ack").isSome = true →
      changes.all (fun change => lit "ack" ≠ lit change.1) = true)
    (envelope : (r.get? "envelopeId").isSome = true →
      changes.all (fun change => lit "envelopeId" ≠ lit change.1) = true)
    : Forward r (r.assign changes) where
  rank := rank
  ack := fun present => Members.get?_assign_other (ack present)
  envelope := fun present => Members.get?_assign_other (envelope present)
  fixed := get?_fixed named

/-- What `markSent` sets besides the state. -/
theorem sent_names {envelope sequence : Option Json}
    : ∀ change ∈ (envelope.toList.map fun id => ("envelopeId", id))
        ++ sequence.toList.map (fun sequence => ("destinationSequence", sequence)),
      change.1 = "envelopeId" ∨ change.1 = "destinationSequence" := by
  intro change member
  rcases List.mem_append.mp member with id | number
  · obtain ⟨value, -, rfl⟩ := List.mem_map.mp id
    exact .inl rfl
  · obtain ⟨value, -, rfl⟩ := List.mem_map.mp number
    exact .inr rfl

theorem forward_of_change {changes : List (String × Json)} (change : Change r changes)
    (valid : validCommand r = true)
    : Forward r (r.assign changes) := by
  cases change with
  | uncertain state =>
      have after : stateOf (r.assign [stateChange .uncertain]) = some .uncertain :=
        stateOf_assign_state (by decide)
      refine forward_of_untouched (by simp [stateChange, changedFields]) ?_
        (fun _ => by decide) fun _ => by decide
      rw [rankOf_of_state state, rankOf_of_state after]
      decide
  | @sent envelope sequence state once =>
      have names := @sent_names envelope sequence
      have after : stateOf (r.assign ([stateChange .sent]
          ++ (envelope.toList.map fun id => ("envelopeId", id))
          ++ sequence.toList.map fun sequence => ("destinationSequence", sequence)))
          = some .sent := by
        rw [List.append_assoc]
        refine stateOf_assign_state (List.all_eq_true.mpr ?_)
        intro change member
        rcases names change member with same | same <;> rw [same] <;> decide
      refine forward_of_untouched ?_ ?_ ?_ ?_
      · intro change member
        rw [List.append_assoc] at member
        rcases List.mem_cons.mp member with rfl | rest
        · decide
        · rcases names change rest with same | same <;> rw [same] <;> decide
      · rw [rankOf_of_state after]
        rcases state with claimed | uncertain
        · rw [rankOf_of_state claimed]
          decide
        · rw [rankOf_of_state uncertain]
          decide
      · intro present
        rcases (ack_iff_of_valid valid).mp present with acked | forwarded
        · rw [acked] at state
          simp at state
        · rw [forwarded] at state
          simp at state
      · intro present
        rw [once present]
        cases sequence with
        | none => decide
        | some value =>
            simp [stateChange]
            decide
  | @late id absent =>
      have kept : stateOf (r.assign [("envelopeId", id)]) = stateOf r := by
        rw [stateOf, Members.get?_assign_other (by simp; decide), stateOf]
      refine forward_of_untouched (by simp [changedFields]) ?_ (fun _ => by simp; decide) ?_
      · rw [rankOf, rankOf, kept]
      · intro present
        rw [absent] at present
        exact absurd present (by simp)
  | @acked ack absent =>
      have after : stateOf (r.assign [stateChange .acked, ("ack", ack)]) = some .acked :=
        stateOf_assign_state (by simp; decide)
      refine forward_of_untouched (by simp [stateChange, changedFields]) ?_ ?_
        (fun _ => by simp [stateChange]; decide)
      · rw [rankOf_of_state after]
        exact rankOf_le_of_no_ack valid absent
      · intro present
        rw [absent] at present
        exact absurd present (by simp)
  | ackForwarded present =>
      have after : stateOf (r.assign [stateChange .ackForwarded]) = some .ackForwarded :=
        stateOf_assign_state (by decide)
      refine forward_of_untouched (by simp [stateChange, changedFields]) ?_
        (fun _ => by decide) fun _ => by decide
      rw [rankOf_of_state after]
      exact rankOf_le r

variable {T : Type} [LinearOrder T] {settings : Settings T}

variable {num : Numbers T} {now : JsNumber}

/-- A record that moved forward expires when it did. -/
theorem Forward.live {earlier later : Members} (h : Forward earlier later)
    : live num now later = live num now earlier := by
  have same := h.fixed "expiresAt" (by decide)
  rw [Memory.live, Memory.live, same]

theorem Forward.commandId {earlier later : Members} (h : Forward earlier later)
    : commandIdOf later = commandIdOf earlier := by
  rw [commandIdOf, commandIdOf, h.fixed "commandId" (by decide)]

variable {commandId : JsString}

theorem get_eq_some {memory : Memory}
    : memory.get num now commandId = some r
      ↔ memory.commands.get? commandId = some r ∧ live num now r = true := by
  rw [Memory.get, Option.filter_eq_some_iff]

theorem commandIdOf_claimRecord (num : Numbers T) (now : JsNumber) (input : Members)
    : commandIdOf (claimRecord num now input) = commandIdOf input := by
  have other (claimedAt expiresAt : JsNumber)
      : [("v", Json.number (.int 1)), ("state", Json.string (lit "claimed")),
          ("claimedAt", Json.number claimedAt), ("expiresAt", Json.number expiresAt)].all
        (fun change => lit "commandId" ≠ lit change.1) = true := by
    simp only [List.all_cons, List.all_nil, Bool.and_true, Bool.and_eq_true, decide_eq_true_eq]
    decide
  rw [commandIdOf, commandIdOf, claimRecord, Members.get?_assign_other (other _ _)]

variable {op : Op}

theorem Written.forward {memory : Memory} {line : Line} (written : Written num now memory op line)
    (sound : memory.Sound) (bound : memory.get num now commandId = some r)
    : ∃ later, (memory.apply line).get num now commandId = some later ∧ Forward r later := by
  obtain ⟨held, alive⟩ := get_eq_some.mp bound
  cases written with
  | @claimed input absent =>
      have other : commandId ≠ commandIdOf (claimRecord num now input) := by
        intro same
        rw [same, commandIdOf_claimRecord, absent] at bound
        exact absurd bound (by simp)
      refine ⟨r, get_eq_some.mpr ⟨?_, alive⟩, .refl r⟩
      simp only [Memory.apply, JsMap.get?_set, if_neg other, held]
  | @updated op about record changes named found change update =>
      obtain ⟨recorded, -⟩ := get_eq_some.mp found
      have forward := forward_of_change change (sound.valid_of_get? recorded)
      have own := forward.commandId.trans (sound.key_of_get? recorded)
      by_cases same : commandId = about
      · rw [same, found] at bound
        obtain rfl := Option.some.inj bound
        refine ⟨_, get_eq_some.mpr ⟨?_, forward.live.trans alive⟩, forward⟩
        simp only [Memory.apply, JsMap.get?_set, own, if_pos same]
      · refine ⟨r, get_eq_some.mpr ⟨?_, alive⟩, .refl r⟩
        simp only [Memory.apply, JsMap.get?_set, own, if_neg same, held]
  | seen => exact ⟨r, bound, .refl r⟩

variable {ledger : FileLedger}

theorem compactIfDue_get (stored : Stored settings ledger) (force : Bool) (now : JsNumber)
    (commandId : JsString)
    : (compactIfDue settings force now ledger).memory.get settings.num now commandId
      = ledger.memory.get settings.num now commandId := by
  rw [compactIfDue_memory stored]
  split
  · exact get_compacted stored.sound (le_refl _) commandId
  · rfl

theorem held_get {reached : FileLedger} (stored : Stored settings reached) (died : JsNumber)
    (renamed : Bool) (commandId : JsString)
    : (held settings died reached renamed).memory.get settings.num died commandId
      = reached.memory.get settings.num died commandId := by
  cases renamed with
  | false => rfl
  | true =>
      rw [held, if_pos rfl, stored.compact_eq]
      exact get_compacted stored.sound (le_refl _) commandId

theorem InFlight.forward {reached : FileLedger} (h : InFlight settings now ledger reached)
    (stored : Stored settings ledger)
    (bound : ledger.memory.get settings.num now commandId = some r)
    : ∃ later, reached.memory.get settings.num now commandId = some later
        ∧ Forward r later := by
  cases h with
  | idle => exact ⟨r, bound, .refl r⟩
  | written decided encoded =>
      cases plan_decided decided with
      | write valid written => exact written.forward stored.sound bound

variable {next : FileLedger}

/-- A step that reads the clock while a record lives moves it forward, by the kinds of steps. -/
theorem Step.forward {event : Event} (step : Step settings ledger event next)
    (stored : Stored settings ledger) (bound : ledger.memory.commands.get? commandId = some r)
    (unexpired : ∀ now ∈ event.readings, live settings.num now r = true)
    : ∃ later, next.memory.commands.get? commandId = some later ∧ Forward r later := by
  cases step with
  | @resolve now op reply _ _ call =>
      have alive := get_eq_some.mpr ⟨bound, unexpired now (by simp [Event.readings])⟩
      rcases perform_cases call with ⟨-, rfl⟩ | ⟨line, bytes, planned, encoded, rfl, -⟩
      · exact ⟨r, bound, .refl r⟩
      · have reached := InFlight.written planned encoded
        obtain ⟨later, found, forward⟩ := reached.forward stored alive
        rw [← compactIfDue_get (reached.stored stored) false] at found
        exact ⟨later, (get_eq_some.mp found).1, forward⟩
  | reject => exact ⟨r, bound, .refl r⟩
  | @compact now =>
      have alive := get_eq_some.mpr ⟨bound, unexpired now (by simp [Event.readings])⟩
      rw [← held_get stored now true] at alive
      exact ⟨r, (get_eq_some.mp alive).1, .refl r⟩
  | @reopen died now file _ reached _ renamed death opened =>
      have alive := get_eq_some.mpr ⟨bound, unexpired died (by simp [Event.readings])⟩
      rw [load_death stored death] at opened
      have durable := death.inFlight.stored stored
      obtain ⟨later, found, forward⟩ := death.inFlight.forward stored alive
      rw [← held_get durable died renamed] at found
      have reopened := get_eq_some.mpr ⟨(get_eq_some.mp found).1,
        forward.live.trans (unexpired now (by simp [Event.readings]))⟩
      rw [← compactIfDue_get (durable.held died renamed) true now] at reopened
      rw [← Except.ok.inj opened]
      exact ⟨later, (get_eq_some.mp reopened).1, forward⟩

def Reply.recordOf : Reply → Members
  | .claimed _ r => r
  | .record r => r

theorem recordOf_writtenReply (op : Op) (r : Members) (memory : Memory)
    : (writtenReply op (.cmd r) memory).recordOf
      = (memory.commands.get? (commandIdOf r)).getD [] := by
  cases op <;> rfl

theorem live_claimRecord (num : Numbers T) (now : JsNumber) (input : Members)
    : live num now (claimRecord num now input) = true := by
  have expires : ∃ deadlineAt, (claimRecord num now input).get? "expiresAt"
      = some (.number (num.expiry deadlineAt now)) := by
    refine ⟨_, @Members.get?_assign_last "expiresAt" _ input
      [("v", .number (.int 1)), ("state", .string (lit "claimed")), ("claimedAt", .number now)]
      [] rfl⟩
  obtain ⟨deadlineAt, field⟩ := expires
  simp only [live, field, decide_eq_true_eq]
  exact num.expiry_ge deadlineAt now

theorem Written.recorded {memory : Memory} {line : Line} (written : Written num now memory op line)
    (sound : memory.Sound) (about : op.commandId? = some commandId)
    : ∃ r, line = .cmd r ∧ commandIdOf r = commandId
        ∧ (memory.apply line).get num now commandId = some r := by
  cases written with
  | @claimed input absent =>
      have own : commandIdOf (claimRecord num now input) = commandId :=
        (commandIdOf_claimRecord num now input).trans (Option.some.inj about)
      refine ⟨_, rfl, own, get_eq_some.mpr ⟨?_, live_claimRecord num now input⟩⟩
      simp only [Memory.apply, own, JsMap.get?_set_self]
  | @updated _ other record changes named found change update =>
      obtain rfl := Option.some.inj (about.symm.trans named)
      obtain ⟨recorded, alive⟩ := get_eq_some.mp found
      have forward := forward_of_change change (sound.valid_of_get? recorded)
      have own := forward.commandId.trans (sound.key_of_get? recorded)
      refine ⟨_, rfl, own, get_eq_some.mpr ⟨?_, forward.live.trans alive⟩⟩
      simp only [Memory.apply, own, JsMap.get?_set_self]
  | seen => exact absurd about (by simp [Op.commandId?])

theorem perform_recorded {reply : Reply} (stored : Stored settings ledger)
    (call : perform settings now op ledger = .ok (reply, next))
    (about : op.commandId? = some commandId)
    : next.memory.get settings.num now commandId = some reply.recordOf := by
  rcases perform_cases call with ⟨planned, rfl⟩ | ⟨line, bytes, planned, encoded, rfl, rfl⟩
  · cases plan_decided planned with
    | answer answered =>
        cases answered with
        | repeated found =>
            obtain rfl := Option.some.inj about
            exact found
        | unchanged named found =>
            obtain rfl := Option.some.inj (about.symm.trans named)
            exact found
        | seen => exact absurd about (by simp [Op.commandId?])
  · cases plan_decided planned with
    | write valid written =>
        obtain ⟨r, rfl, own, found⟩ := written.recorded stored.sound about
        have durable := stored.appended valid encoded
        have kept : (compactIfDue settings false now (appended (.cmd r) bytes ledger)).memory.get
            settings.num now commandId = some r :=
          (compactIfDue_get durable false now commandId).trans found
        rw [recordOf_writtenReply, own, kept, (get_eq_some.mp kept).1]
        rfl

theorem settle_recorded {ack : Json} {reply : Reply} (stored : Stored settings ledger)
    (call : perform settings now (.settle commandId ack) ledger = .ok (reply, next))
    : (reply.recordOf.get? "ack").isSome = true := by
  have recorded := perform_recorded stored call rfl
  rcases perform_cases call with ⟨planned, rfl⟩ | ⟨line, bytes, planned, encoded, rfl, rfl⟩
  · obtain ⟨record, -, planned⟩ := bind_eq_ok.mp planned
    obtain ⟨-, planned⟩ := require_bind_eq_ok.mp planned
    split at planned
    · next present =>
        obtain rfl := Plan.answer.inj (Except.ok.inj planned)
        exact present
    · obtain ⟨-, planned⟩ := require_bind_eq_ok.mp planned
      exact absurd (Except.ok.inj planned) (by simp)
  · cases plan_decided planned with
    | write valid written =>
        obtain ⟨r, rfl, own, found⟩ := written.recorded stored.sound rfl
        have durable := stored.appended valid encoded
        rw [compactIfDue_get durable] at recorded
        have same : r = _ := Option.some.inj (found.symm.trans recorded)
        rw [← same]
        obtain ⟨record, -, planned⟩ := bind_eq_ok.mp planned
        obtain ⟨-, planned⟩ := require_bind_eq_ok.mp planned
        split at planned
        · exact absurd (Except.ok.inj planned) (by simp)
        · obtain ⟨-, planned⟩ := require_bind_eq_ok.mp planned
          obtain rfl := Line.cmd.inj (Plan.write.inj (Except.ok.inj planned))
          have set : (record.assign [stateChange .acked, ("ack", ack)]).get? "ack" = some ack :=
            @Members.get?_assign_last "ack" ack record [stateChange .acked] [] rfl
          rw [set]
          rfl

/-- What a mutation about a command answers once its record is `r`: a record moved forward from
it, and for a claim no right to publish.
-/
def Event.Follows (commandId : JsString) (r : Members) : Event → Prop
  | .resolved _ op reply => op.commandId? = some commandId →
      Forward r reply.recordOf
        ∧ ∀ status record, reply = .claimed status record →
          status ≠ .new ∧ ∀ published, bridgeNatsClaimAction status record ≠ .publish published
  | _ => True

theorem publish_iff {status : ClaimStatus} {record : Members}
    : (∃ published, bridgeNatsClaimAction status record = .publish published)
      ↔ status = .new := by
  cases status with
  | duplicate =>
      simp only [bridgeNatsClaimAction, reduceCtorEq, iff_false, not_exists]
      intro published
      split
      · simp
      · split <;> simp
  | _ => simp [bridgeNatsClaimAction]

theorem claimed_not_new {status : ClaimStatus} {record : Members}
    (call : perform settings now op ledger = .ok (.claimed status record, next))
    (about : op.commandId? = some commandId)
    (bound : ledger.memory.get settings.num now commandId = some r)
    : status ≠ .new := by
  rcases perform_cases call with ⟨planned, rfl⟩ | ⟨line, bytes, planned, encoded, rfl, answer⟩
  · cases plan_decided planned with
    | answer answered =>
        cases answered with
        | repeated found =>
            unfold repeatedStatus
            split
            · simp
            · split <;> simp
  · cases plan_decided planned with
    | write valid written =>
        cases written with
        | claimed absent =>
            obtain rfl := Option.some.inj about
            rw [absent] at bound
            exact absurd bound (by simp)
        | updated named found change update =>
            cases op with
            | claim input => exact absurd rfl (update input)
            | _ => exact absurd answer (by simp [writtenReply])
        | seen => exact absurd about (by simp [Op.commandId?])

theorem Step.follows {event : Event} (step : Step settings ledger event next)
    (stored : Stored settings ledger) (bound : ledger.memory.commands.get? commandId = some r)
    (unexpired : ∀ now ∈ event.readings, live settings.num now r = true)
    : event.Follows commandId r := by
  cases step with
  | @resolve now op reply _ _ call =>
      intro about
      obtain ⟨later, found, forward⟩ := (Step.resolve call).forward stored bound unexpired
      obtain ⟨recorded, -⟩ := get_eq_some.mp (perform_recorded stored call about)
      obtain rfl := Option.some.inj (found.symm.trans recorded)
      refine ⟨forward, ?_⟩
      rintro status record rfl
      have alive := get_eq_some.mpr ⟨bound, unexpired now (by simp [Event.readings])⟩
      have known := claimed_not_new call about alive
      exact ⟨known, fun published publish => known (publish_iff.mp ⟨published, publish⟩)⟩
  | _ => trivial

/-- What an answer says of a later record it says of an earlier one. -/
theorem Event.Follows.of_forward {earlier later : Members} {event : Event}
    (h : event.Follows commandId later) (forward : Forward earlier later)
    : event.Follows commandId earlier := by
  cases event with
  | resolved now op reply =>
      intro about
      obtain ⟨moved, claims⟩ := h about
      exact ⟨forward.trans moved, claims⟩
  | _ => trivial

/-- A run moves a record forward while it lives, by induction over the run. -/
theorem Run.forward {first last : FileLedger} {events : List Event}
    (run : Run settings first events last) (stored : Stored settings first)
    (bound : first.memory.commands.get? commandId = some r)
    (unexpired : ∀ event ∈ events, ∀ now ∈ event.readings, live settings.num now r = true)
    : (∃ later, last.memory.commands.get? commandId = some later ∧ Forward r later)
      ∧ ∀ event ∈ events, event.Follows commandId r := by
  induction run generalizing r with
  | refl => exact ⟨⟨r, bound, .refl r⟩, by simp⟩
  | @step first middle last event events head tail ih =>
      have now := unexpired event (List.mem_cons_self ..)
      obtain ⟨next, found, forward⟩ := head.forward stored bound now
      have later : ∀ other ∈ events, ∀ now ∈ other.readings,
          live settings.num now next = true := by
        intro other member now reading
        rw [forward.live]
        exact unexpired other (List.mem_cons_of_mem _ member) now reading
      obtain ⟨⟨final, held, onward⟩, answers⟩ := ih (head.stored stored) found later
      refine ⟨⟨final, held, forward.trans onward⟩, ?_⟩
      intro other member
      rcases List.mem_cons.mp member with rfl | inside
      · exact head.follows stored bound now
      · exact (answers other inside).of_forward forward

theorem awaitAck_no_ack {status : ClaimStatus} {record awaited : Members}
    (h : bridgeNatsClaimAction status record = .awaitAck awaited)
    : record.get? "ack" = none := by
  cases status with
  | duplicate =>
      cases found : record.get? "ack" with
      | none => rfl
      | some ack => exact absurd h (by simp [bridgeNatsClaimAction, found])
  | _ => exact absurd h (by simp [bridgeNatsClaimAction])

/-- In every run, while the record of a command lives: it only moves forward, and every mutation
about the command answers a record moved forward from it, without a second right to publish.
What a mutation answers is the record it left, and a `settle` answers an ACK, so the first ACK
is the one that every later `settle` answers. A record with an ACK is never awaited.
-/
theorem command_moves_forward {ledger : FileLedger} (reachable : Reachable settings ledger)
    : (∀ commandId r, ledger.memory.commands.get? commandId = some r →
        ∀ events last, Run settings ledger events last →
        (∀ event ∈ events, ∀ now ∈ event.readings, live settings.num now r = true) →
        (∃ later, last.memory.commands.get? commandId = some later ∧ Forward r later)
          ∧ ∀ event ∈ events, event.Follows commandId r)
      ∧ (∀ now op reply next, Step settings ledger (.resolved now op reply) next →
        ∀ commandId, op.commandId? = some commandId →
        next.memory.commands.get? commandId = some reply.recordOf
          ∧ live settings.num now reply.recordOf = true
          ∧ ∀ ack, op = .settle commandId ack → (reply.recordOf.get? "ack").isSome = true)
      ∧ ∀ status record awaited,
        bridgeNatsClaimAction status record = .awaitAck awaited →
        record.get? "ack" = none := by
  have stored := reachable.stored
  refine ⟨?_, ?_, fun status record awaited => awaitAck_no_ack⟩
  · intro commandId r bound events last run unexpired
    exact run.forward stored bound unexpired
  · intro now op reply next step commandId about
    cases step with
    | resolve call =>
        obtain ⟨found, alive⟩ := get_eq_some.mp (perform_recorded stored call about)
        refine ⟨found, alive, ?_⟩
        intro ack same
        subst same
        exact settle_recorded stored call

set_option maxRecDepth 10000 in
/-- Witness: the record of a sent command across a compaction and a reopen. -/
theorem command_moves_forward_sent
    : ∃ next,
        load millisSettings (.int 2)
            (compact millisSettings (.int 1)
              (ledgerOf millisSettings sentLines)).file = .ok next
          ∧ ∃ later, next.memory.commands.get? (repeated 'a') = some later
            ∧ Forward ((claimedRecord 'a').assign [stateChange .sent]) later := by
  have reachable := reachable_sentLines
  have bound : (replay sentLines).commands.get? (repeated 'a')
      = some ((claimedRecord 'a').assign [stateChange .sent]) := rfl
  have unexpired : ∀ event ∈ [Event.compacted (.int 1), .reopened (.int 1) (.int 2)],
      ∀ now ∈ event.readings,
        live millis now ((claimedRecord 'a').assign [stateChange .sent]) = true := by
    simp only [List.forall_mem_cons, Event.readings]
    decide +kernel
  have opened : load millisSettings (.int 2)
      (compact millisSettings (.int 1)
        (ledgerOf millisSettings sentLines)).file = _ :=
    @load_death _ _ _ (.int 1) _ _ _ _ _ (reachable.stored.compact (.int 1)) (.between .idle)
  exact ⟨_, opened, ((command_moves_forward reachable).1 (repeated 'a') _ bound _ _
    (.step .compact (.step (.reopen (.between .idle) opened) .refl)) unexpired).1⟩

end PiFabric.Ledger
