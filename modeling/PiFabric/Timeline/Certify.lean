import PiFabric.Timeline.Chain

/-! A verification certifies transitions that were proposed, on evidence that was confirmed, and
keeps a certificate in the head only where the head is still the one that it read.
-/

namespace PiFabric.Timeline

open JsString
open Interleaving (Prog Protocol)

variable {ι : Type} {w w' : World ι} {thread : ι} {maxReadEvents : Nat}

/-- The events that a reader saw were published. -/
def Seen (w : World ι) (events : List Event) : Prop :=
  ∀ event ∈ events, ∃ published ∈ w.log, published.event = event

theorem seen_stateEvents : Seen w (w.stateEvents maxReadEvents) :=
  fun _ => mem_stateEvents

variable {events : List Event}

theorem Seen.grows (h : Seen w events) (grown : Grows w w')
    : Seen w' events := by
  intro event member
  obtain ⟨published, inside, same⟩ := h event member
  exact ⟨published, grown.mem inside, same⟩

variable {record : TransitionRecord}

variable {event : Event}

theorem recorded_of_toRecord {committedIds : List JsString}
    (seen : ∃ published ∈ w.log, published.event = event)
    (h : toRecord event committedIds = some record)
    : Recorded w record := by
  obtain ⟨published, member, rfl⟩ := seen
  unfold toRecord at h
  cases payload : published.event.payload <;> simp only [payload] at h
  case transition phase data =>
    split_ifs at h
    cases h
    exact ⟨published, member, rfl, phase, data, payload, rfl, rfl⟩
  all_goals exact absurd h (by simp)

variable {head : Head}

theorem recorded_of_toHeadRecord {version : Nat} (sound : SoundHead w version head.toHeadValue)
    (h : toHeadRecord head = some record)
    : Recorded w record := by
  obtain ⟨published, member, sequence, -, same⟩ := sound.proposal
  unfold toHeadRecord at h
  split at h
  · split at h
    · cases h
      exact ⟨published, member, by rw [same], .proposed, head.toTransition, by rw [same], rfl, rfl⟩
    · exact absurd h (by simp)
  · exact absurd h (by simp)

/-- The head that a history is read with, if any, is sound. -/
def SoundRead (w : World ι) (currentHead : Option Head) : Prop :=
  ∀ head, currentHead = some head → ∃ version, SoundHead w version head.toHeadValue

variable {currentHead : Option Head}

theorem recorded_of_mem_allRecords (seen : Seen w events) (sound : SoundRead w currentHead)
    (h : record ∈ allRecords events currentHead)
    : Recorded w record := by
  unfold allRecords at h
  rcases List.mem_append.mp ((List.mem_insertionSort _).mp h) with own | missing
  · obtain ⟨event, member, found⟩ := List.mem_filterMap.mp own
    exact recorded_of_toRecord (seen event member) found
  · cases currentHead with
    | none => simp at missing
    | some head =>
        obtain ⟨version, isSound⟩ := sound head rfl
        simp only at missing
        split at missing
        · simp at missing
        · exact recorded_of_toHeadRecord isSound (Option.mem_toList.mp missing)

variable {input : HistoryInput}

theorem mem_transitions (h : record ∈ (historyOf input events currentHead).transitions)
    : ∃ base ∈ visibleRecords input.includeArchived (allRecords events currentHead),
        record = withCertificate (latestCertificate events currentHead
          (allCertifications events currentHead (visibleRecords input.includeArchived
            (allRecords events currentHead))) base.transitionId) base := by
  have limited : record ∈ ((visibleRecords input.includeArchived
      (allRecords events currentHead)).filter (matchesLabel input.label
        (archiveBoundaryId input.includeArchived (allRecords events currentHead)))).map
        fun record => withCertificate (latestCertificate events currentHead
          (allCertifications events currentHead (visibleRecords input.includeArchived
            (allRecords events currentHead))) record.transitionId) record := by
    unfold historyOf at h
    simp only at h
    split at h
    · split at h
      · exact List.mem_of_mem_take h
      · exact h
    · exact h
  obtain ⟨base, member, same⟩ := List.mem_map.mp limited
  exact ⟨base, (List.mem_filter.mp member).1, same.symm⟩

theorem mem_allRecords_of_visible {includeArchived : Bool} {records : List TransitionRecord}
    (h : record ∈ visibleRecords includeArchived records)
    : record ∈ records := by
  unfold visibleRecords at h
  split at h
  · split at h
    · exact h
    · exact List.mem_of_mem_drop h
  · exact h

theorem withCertificate_same (certificate : Option Certificate) (record : TransitionRecord)
    : (withCertificate certificate record).transitionId = record.transitionId
      ∧ (withCertificate certificate record).label = record.label
      ∧ (withCertificate certificate record).toLabel = record.toLabel := by
  cases certificate <;> exact ⟨rfl, rfl, rfl⟩

theorem recorded_of_mem_transitions (seen : Seen w events) (sound : SoundRead w currentHead)
    (h : record ∈ (historyOf input events currentHead).transitions)
    : Recorded w record := by
  obtain ⟨base, visible, rfl⟩ := mem_transitions h
  obtain ⟨published, member, id, phase, data, payload, label, toLabel⟩ :=
    recorded_of_mem_allRecords seen sound (mem_allRecords_of_visible visible)
  obtain ⟨sameId, sameLabel, sameTo⟩ := withCertificate_same (latestCertificate events currentHead
    (allCertifications events currentHead (visibleRecords input.includeArchived
      (allRecords events currentHead))) base.transitionId) base
  exact ⟨published, member, id.trans sameId.symm, phase, data, payload, label.trans sameLabel.symm,
    toLabel.trans sameTo.symm⟩

theorem ReadHead.soundRead {before : World ι} {current : Option Head} (known : Inv w)
    (read : ∀ head, current = some head → ReadHead before w head)
    : SoundRead w current := by
  intro head same
  obtain ⟨found, isHead, sound⟩ := known.heads _ _ (read head same).known
  cases isHead
  exact ⟨_, sound⟩

theorem sound_history
    : Sound maxReadEvents thread (fun w' outcome => Later maxReadEvents thread w w'
        ∧ ∀ history, outcome = .ok history → ∀ record ∈ history.transitions, Recorded w' record)
      (history input).run w := by
  refine sound_read (fun w' _ later => ⟨later, by simp⟩) fun w1 l1 => ?_
  refine sound_then l1.inv (fun w' _ later => ⟨l1.trans later, by simp⟩) sound_getHead
    fun w2 current l2 read => ?_
  refine sound_pure fun w3 l3 => ⟨(l1.trans l2).trans l3, ?_⟩
  rintro _ ⟨rfl⟩ record member
  refine l3.grows.recorded (recorded_of_mem_transitions (seen_stateEvents.grows l2.grows) ?_ member)
  exact ReadHead.soundRead l2.inv fun head same => read head (congrArg _ same)

theorem mem_mergeRecords {merged transitions : List TransitionRecord}
    (h : record ∈ mergeRecords merged transitions)
    : record ∈ merged ∨ record ∈ transitions := by
  unfold mergeRecords at h
  induction transitions generalizing merged with
  | nil => exact .inl h
  | cons transition rest ih =>
      rw [List.foldl_cons] at h
      rcases ih h with before | later
      · split at before
        · obtain ⟨old, member, same⟩ := List.mem_map.mp before
          split at same
          · exact .inr (same ▸ List.mem_cons_self)
          · exact .inl (same ▸ member)
        · rcases List.mem_append.mp before with old | new
          · exact .inl old
          · exact .inr (List.mem_singleton.mp new ▸ List.mem_cons_self)
      · exact .inr (List.mem_cons_of_mem _ later)

theorem sound_labelTargets {includeArchived : Bool} {labels : List JsString}
    {merged : List TransitionRecord} (known : Inv w)
    (recorded : ∀ record ∈ merged, Recorded w record)
    : Sound maxReadEvents thread (fun w' outcome => Later maxReadEvents thread w w'
        ∧ ∀ targets, outcome = .ok targets → ∀ record ∈ targets, Recorded w' record)
      (labelTargets includeArchived labels merged).run w := by
  induction labels generalizing w merged with
  | nil =>
      refine sound_pure fun w' later => ⟨later, ?_⟩
      rintro _ ⟨rfl⟩ record member
      exact later.grows.recorded (recorded record member)
  | cons label rest ih =>
      refine sound_then known (fun w' _ later => ⟨later, by simp⟩) sound_history
        fun w1 found l1 known1 => ?_
      refine Protocol.Sound.weaken (ih l1.inv ?_) ?_
      · intro record member
        rcases mem_mergeRecords member with before | new
        · exact l1.grows.recorded (recorded record before)
        · exact known1 _ rfl record new
      · exact fun w' outcome _ _ stated => ⟨l1.trans stated.1, stated.2⟩

theorem sound_verifyTargets {input : VerifyInput} {verificationHead : Option Head} (known : Inv w)
    : Sound maxReadEvents thread (fun w' outcome => Later maxReadEvents thread w w'
        ∧ ∀ targets, outcome = .ok targets → ∀ record ∈ targets, Recorded w' record)
      (verifyTargets input verificationHead).run w := by
  unfold verifyTargets
  split
  · refine sound_then known (fun w' _ later => ⟨later, by simp⟩)
      (sound_labelTargets known (by simp)) fun w1 merged l1 recorded => ?_
    refine sound_pure fun w2 l2 => ⟨l1.trans l2, ?_⟩
    rintro _ ⟨rfl⟩ record member
    exact l2.grows.recorded (recorded _ rfl record ((List.mem_insertionSort _).mp member))
  · refine sound_then known (fun w' _ later => ⟨later, by simp⟩) sound_history
      fun w1 found l1 recorded => ?_
    refine sound_pure fun w2 l2 => ⟨l1.trans l2, ?_⟩
    rintro _ ⟨rfl⟩ record member
    have isFound := Option.mem_toList.mp member
    exact l2.grows.recorded (recorded _ rfl record (List.mem_of_find?_eq_some isFound))
  · exact sound_pure fun w' later => ⟨later, by rintro _ ⟨rfl⟩; simp⟩

theorem sound_runEvidence {commands : List (JsString × JsString)} (known : Inv w)
    : Sound maxReadEvents thread (fun w' outcome => Later maxReadEvents thread w w'
        ∧ ∀ results, outcome = .ok results →
          results.map (fun verified => (verified.claim, verified.command)) = commands)
      (runEvidence commands).run w := by
  induction commands generalizing w with
  | nil => exact sound_pure fun w' later => ⟨later, by rintro _ ⟨rfl⟩; rfl⟩
  | cons first rest ih =>
      obtain ⟨claim, command⟩ := first
      refine sound_runCommand (fun w' _ later => ⟨later, by simp⟩) fun w1 result l1 => ?_
      refine sound_then l1.inv (fun w' _ later => ⟨l1.trans later, by simp⟩) (ih l1.inv)
        fun w2 others l2 same => ?_
      refine sound_pure fun w3 l3 => ⟨(l1.trans l2).trans l3, ?_⟩
      rintro _ ⟨rfl⟩
      simp [same _ rfl]

/-- What a verification goes by was read, and the evidence of all its targets was run if nothing
failed before.
-/
structure Gathered (w : World ι) (evidence : Evidence) (failures : List VerificationFailure)
    : Prop where
  head : ∀ head, evidence.head = some head →
    HeadAt w head.version head.toHeadValue ∧ head.version ≤ w.store.version .current
  records : ∀ record ∈ evidence.targets, Recorded w record
  commands : failures = [] → evidence.results.map
    (fun verified => (verified.claim, verified.command)) = commandsOf evidence.targets

variable {evidence : Evidence}

variable {failures : List VerificationFailure}

theorem Gathered.grows (h : Gathered w evidence failures) (grown : Grows w w')
    : Gathered w' evidence failures where
  head := fun head same =>
    ⟨grown.headAt (h.head head same).1, (h.head head same).2.trans (grown.store.version _)⟩
  records := fun record member => grown.recorded (h.records record member)
  commands := h.commands

theorem sound_gather {input : VerifyInput}
    : Sound maxReadEvents thread (fun w' outcome => Later maxReadEvents thread w w'
        ∧ ∀ gathered, outcome = .ok gathered → Gathered w' gathered.1.evidence gathered.2)
      (gather input).run w := by
  refine sound_observe fun w1 observed l1 => ?_
  refine sound_then l1.inv (fun w' _ later => ⟨l1.trans later, by simp⟩) sound_getHead
    fun w2 head l2 read => ?_
  have l12 := l1.trans l2
  refine sound_then l12.inv (fun w' _ later => ⟨l12.trans later, by simp⟩)
    (sound_verifyTargets l12.inv) fun w3 targets l3 recorded => ?_
  have l13 := l12.trans l3
  refine sound_then l13.inv (fun w' _ later => ⟨l13.trans later, by simp⟩)
    (sound_runEvidence l13.inv) fun w4 results l4 ran => ?_
  refine sound_pure fun w5 l5 => ⟨(l13.trans l4).trans l5, ?_⟩
  rintro _ ⟨rfl⟩
  refine Gathered.grows ⟨?_, ?_, ?_⟩ l5.grows
  · intro found same
    have isHead := (read found (congrArg _ same)).grows (l3.grows.trans l4.grows)
    exact ⟨isHead.known, isHead.upto⟩
  · exact fun record member => l4.grows.recorded (recorded _ rfl record member)
  · intro none_
    have bound := (List.append_eq_nil_iff.mp (List.append_eq_nil_iff.mp
      (List.append_eq_nil_iff.mp none_).1).1).1
    simpa [bound] using ran _ rfl

variable {verificationHead : Head}

theorem sameHead_iff
    : sameHead head verificationHead = true ↔ head.version = verificationHead.version
      ∧ head.transitionId = verificationHead.transitionId ∧ head.label = verificationHead.label
      ∧ head.toLabel = verificationHead.toLabel := by
  simp [sameHead, and_assoc]

structure Holds (w : World ι) (certificate : Certificate) (published : Published ι)
    (evidence : Evidence) (verificationHead : Head) : Prop where
  member : published ∈ w.log
  certifies : Certifies published certificate
  carries : published.evidence = some evidence
  read : evidence.head = some verificationHead
  after : verificationHead.version ≤ published.headVersion

variable {certificate : Certificate}

variable {published : Published ι}

theorem Holds.grows (h : Holds w certificate published evidence verificationHead)
    (grown : Grows w w')
    : Holds w' certificate published evidence verificationHead :=
  { h with member := grown.mem h.member }

/-- A compare-and-swap on a version that the head had replaces that head. -/
theorem Inv.live (h : Inv w) (known : HeadAt w head.version head.toHeadValue)
    (accepts : Accepts w .current head.version)
    : w.store.version .current = head.version
      ∧ w.store.rows .current = some (.head head.toHeadValue) := by
  have positive := (h.store.logged _ _ _ known).1
  rcases accepts with same | ⟨-, zero⟩
  · exact ⟨same, (h.store.live .current).trans (same ▸ known)⟩
  · omega

theorem SoundHead.certified {durable : Certificate} {certified : CertificationHead}
    (h : SoundHead w head.version head.toHeadValue) (known : Inv w)
    (current : w.store.version .current = head.version)
    (same : sameHead head verificationHead = true)
    (holds : Holds w certificate published evidence verificationHead)
    (names : durable.head = some certified) (version : certified.version = head.version + 1)
    (id : durable.certificateId = certificate.certificateId)
    (sequence : durable.sequence = certificate.sequence)
    : SoundHead w (head.version + 1) { head.toHeadValue with certificate := some durable } where
  protocol := h.protocol
  proof := h.proof
  proposal := h.proposal
  certificate := by
    rintro _ ⟨rfl⟩
    refine ⟨certified, names, version.le, fun _ => ⟨published, holds.member, ?_, evidence,
      verificationHead, ?_, ?_⟩⟩
    · obtain ⟨isId, isSequence, isCertified⟩ := holds.certifies
      exact ⟨isId.trans id.symm, isSequence.trans sequence.symm, isCertified⟩
    · refine ⟨holds.carries, holds.read, le_antisymm ?_ holds.after⟩
      rw [← (sameHead_iff.mp same).1, ← current]
      exact known.headVersions _ holds.member
    · obtain ⟨-, isId, label, toLabel⟩ := sameHead_iff.mp same
      exact ⟨isId.symm, label.symm, toLabel.symm⟩

theorem sound_persistCurrentCertificate
    (holds : Holds w certificate published evidence verificationHead)
    : Sound maxReadEvents thread (fun _ _ => True)
      (persistCurrentCertificate certificate verificationHead).run w := by
  refine sound_get (fun _ _ _ => trivial) fun w1 l1 => ?_
  split
  · next head certified found named =>
      obtain ⟨row, same⟩ := Option.filter_eq_some_iff.mp found
      obtain ⟨known, -, sound⟩ := l1.inv.headFound row
      refine sound_attempt_put fun w2 l2 reply w3 performed => ?_
      rcases performs_put performed with ⟨rfl, rfl, accepts⟩ | ⟨rfl, failure, rfl, refused⟩
      · obtain ⟨current, live⟩ := l2.inv.live (l2.grows.headAt known) accepts
        have issued : w2.store.issue .current = head.version + 1 := by
          simp [Cas.Store.issue, live, current]
        have kept : SoundHead w2 (head.version + 1) { head.toHeadValue with
            certificate := some { certificate with
              head := some { certified with version := head.version + 1 }, current := true } } :=
          SoundHead.certified (sound.grows l2.grows) l2.inv current same
            ((holds.grows l1.grows).grows l2.grows) rfl rfl rfl rfl
        exact ⟨guaranteed_write l2.inv fun _ written isWritten =>
          ⟨_, (Option.some.inj isWritten).symm, issued ▸ kept⟩, fun _ _ => trivial⟩
      · refine ⟨.refl l2.inv, ?_⟩
        cases refused <;> exact fun _ _ => trivial
  · exact fun _ _ => trivial

theorem SoundHead.revoked {version : Nat} {head : HeadValue} (h : SoundHead w version head)
    (later : Nat)
    : SoundHead w later { head with certificate := none } where
  protocol := h.protocol
  proof := h.proof
  proposal := h.proposal
  certificate := by simp

theorem sound_revokeCurrentCertificate
    : Sound maxReadEvents thread (fun w' _ => Later maxReadEvents thread w w')
      (revokeCurrentCertificate verificationHead).run w := by
  refine sound_get (fun _ _ later => later) fun w1 l1 => ?_
  split
  · next head found =>
      obtain ⟨row, -⟩ := Option.filter_eq_some_iff.mp found
      obtain ⟨-, -, sound⟩ := l1.inv.headFound row
      split
      · refine sound_attempt_put fun w2 l2 reply w3 performed => ?_
        rcases performs_put performed with ⟨rfl, rfl, -⟩ | ⟨rfl, failure, rfl, refused⟩
        · have guaranteed := @guaranteed_write _ _ thread maxReadEvents .current _ l2.inv
            fun _ written isWritten => ⟨_, (Option.some.inj isWritten).symm,
              (sound.grows l2.grows).revoked _⟩
          exact ⟨guaranteed, fun w4 l4 => ((l1.trans l2).trans (guaranteed.silent rfl)).trans l4⟩
        · refine ⟨.refl l2.inv, ?_⟩
          cases refused <;> exact fun w4 l4 => (l1.trans l2).trans l4
      · exact fun w' later => l1.trans later
  · exact fun w' later => l1.trans later

variable {verdicts : Verdicts} {resultDigest : JsString}

theorem sound_publishViolation {pieces : List (List CertificationTarget)}
    : Sound maxReadEvents thread (fun _ _ => True)
      (publishViolation verdicts resultDigest pieces).run w := by
  induction pieces generalizing w with
  | nil => exact fun _ _ => trivial
  | cons piece rest ih =>
      refine sound_now fun w1 ts l1 => ?_
      refine sound_send fun w2 l2 reply w3 performed => ?_
      rcases performs_publish performed with ⟨choice, appends, rfl, rfl⟩ | ⟨rfl, message, rfl⟩
      · exact ⟨guaranteed_append l2.inv appends
          ⟨by simp [Payload.names], by simp, by simp, by simp⟩, ih⟩
      · exact ⟨.refl l2.inv, fun _ _ => trivial⟩

theorem sound_recordViolation (known : Inv w)
    : Sound maxReadEvents thread (fun _ _ => True) (recordViolation verdicts resultDigest) w := by
  have revoked : Sound maxReadEvents thread (fun w' _ => Later maxReadEvents thread w w')
      (revoke verdicts.evidence).run w := by
    unfold revoke
    split
    · exact sound_revokeCurrentCertificate
    · exact fun _ later => later
  refine Protocol.Sound.bind known revoked fun w1 _ inv1 _ _ => ?_
  exact Protocol.Sound.bind inv1 sound_publishViolation fun _ _ _ _ _ _ _ => trivial

/-- What a verification may certify. -/
structure MayCertify (w : World ι) (verdicts : Verdicts) : Prop where
  ran : verdicts.evidence.results ≠ []
  confirmed : ∀ verified ∈ verdicts.evidence.results, verified.result.status = .confirmed
  gathered : Gathered w verdicts.evidence []

theorem MayCertify.grows (h : MayCertify w verdicts) (grown : Grows w w')
    : MayCertify w' verdicts :=
  { h with gathered := h.gathered.grows grown }

theorem MayCertify.confirmed_verdict (h : MayCertify w verdicts) {ts : Nat}
    {piece : List CertificationTarget} (inside : piece ∈ targetChunks verdicts.evidence.targets)
    : Confirmed w (w.store.version .current) (verdicts.verdict resultDigest ts piece)
      verdicts.evidence where
  ran := h.ran
  commands := h.gathered.commands rfl
  confirmed := h.confirmed
  records := h.gathered.records
  targets := by
    intro target member
    obtain ⟨record, listed, same⟩ := List.mem_map.mp (mem_of_mem_chunks inside member)
    exact ⟨record, listed, same.symm⟩
  identity := rfl
  head := h.gathered.head

/-- An event that a verification published for its targets. -/
def Chosen (w : World ι) (verdicts : Verdicts) (event : Event) : Prop :=
  ∃ published ∈ w.log, published.event = event ∧ published.evidence = some verdicts.evidence
    ∧ (∀ head, verdicts.evidence.head = some head → head.version ≤ published.headVersion)

theorem Chosen.grows (h : Chosen w verdicts event) (grown : Grows w w')
    : Chosen w' verdicts event := by
  obtain ⟨published, member, rest⟩ := h
  exact ⟨published, grown.mem member, rest⟩

theorem sound_publishCertified {ts : Nat} {pieces : List (List CertificationTarget)}
    {chosen : Option Event} (may : MayCertify w verdicts)
    (inside : ∀ piece ∈ pieces, piece ∈ targetChunks verdicts.evidence.targets)
    (before : ∀ event, chosen = some event → Chosen w verdicts event)
    : Sound maxReadEvents thread (fun w' outcome =>
        ∀ event, outcome = .ok (some event) → Chosen w' verdicts event)
      (publishCertified verdicts resultDigest ts pieces chosen).run w := by
  induction pieces generalizing w chosen with
  | nil =>
      refine sound_pure fun w' later event same => ?_
      exact (before event (Except.ok.inj same)).grows later.grows
  | cons piece rest ih =>
      refine sound_send fun w1 l1 reply w2 performed => ?_
      have may1 := may.grows l1.grows
      rcases performs_certify performed with ⟨choice, appends, rfl, rfl⟩ | ⟨rfl, message, rfl⟩
      · have confirmed := @MayCertify.confirmed_verdict _ _ _ resultDigest may1 ts piece
          (inside _ List.mem_cons_self)
        have mayPublish : MayPublish w1 thread
            (.certified (verdicts.verdict resultDigest ts piece)) (some verdicts.evidence) := by
          refine ⟨by simp [Payload.names], by simp, by simp, ?_⟩
          rintro data ⟨rfl⟩
          exact ⟨_, rfl, confirmed⟩
        have guaranteed := @guaranteed_append _ _ thread maxReadEvents choice _ _ l1.inv appends
          mayPublish
        refine ⟨guaranteed, ih (may1.grows guaranteed.grows)
          (fun other member => inside other (List.mem_cons_of_mem _ member)) ?_⟩
        intro event same
        split at same
        · cases same
          exact ⟨_, mem_append.mpr (.inr rfl), rfl, rfl, fun head read =>
            (may1.gathered.head head read).2⟩
        · exact ((before event same).grows l1.grows).grows guaranteed.grows
      · exact ⟨.refl l1.inv, fun w' _ event same => absurd same (by simp)⟩

theorem certifies_of_toCertificate {latest : JsString → Option Event}
    (h : toCertificate event currentHead latest = some certificate)
    : event.id = certificate.certificateId ∧ event.sequence = certificate.sequence
      ∧ event.isCertified = true
      ∧ ∃ data, event.payload = .certified data ∧ certificate.head = data.head
        ∧ certificate.targets = data.targets := by
  unfold toCertificate at h
  cases payload : event.payload <;> simp only [payload] at h
  case certified data =>
    split at h
    · exact absurd h (by simp)
    · cases h
      exact ⟨rfl, rfl, by simp [Event.isCertified, payload], data, rfl, rfl, rfl⟩
  all_goals exact absurd h (by simp)

theorem sound_certifyTargets (may : MayCertify w verdicts)
    : Sound maxReadEvents thread (fun _ _ => True)
      (certifyTargets verdicts resultDigest).run w := by
  refine sound_now fun w1 ts l1 => ?_
  refine Protocol.Sound.try_ l1.inv (sound_publishCertified (may.grows l1.grows)
    (fun _ => id) (by simp)) (fun w2 chosen inv2 _ stated => ?_) fun _ _ _ _ _ => trivial
  refine sound_then inv2 (fun _ _ _ => trivial) sound_getHead fun w3 current l3 _ => ?_
  split
  · exact fun _ _ => trivial
  · next certificate found =>
      split
      · next head read =>
          split
          · obtain ⟨event, isChosen, made⟩ := Option.bind_eq_some_iff.mp found
            obtain ⟨published, member, rfl, carries, after⟩ :=
              (stated event (congrArg _ isChosen)).grows l3.grows
            obtain ⟨id, sequence, isCertified, -⟩ := certifies_of_toCertificate made
            exact sound_persistCurrentCertificate
              ⟨member, ⟨id, sequence, isCertified⟩, carries, read, after head read⟩
          · exact fun _ _ => trivial
      · exact fun _ _ => trivial

theorem sound_recordFailure {causes : List Failure} (known : Inv w)
    : Sound maxReadEvents thread (fun _ _ => True) (recordFailure verdicts failures causes) w :=
  Protocol.Sound.bind known (sound_recordViolation known) fun _ _ _ _ _ _ _ => trivial

theorem sound_recordOutcome (known : Inv w) (gathered : Gathered w verdicts.evidence failures)
    : Sound maxReadEvents thread (fun _ _ => True) (recordOutcome verdicts failures) w := by
  unfold recordOutcome
  simp only
  split
  · next certified =>
      simp only [isCertified, Bool.and_eq_true, Bool.not_eq_true', List.isEmpty_eq_false_iff,
        List.isEmpty_iff, List.all_eq_true, decide_eq_true_eq] at certified
      obtain ⟨⟨ran, rfl⟩, confirmed⟩ := certified
      refine Protocol.Sound.bind known (sound_certifyTargets ⟨ran, confirmed, gathered⟩)
        fun w1 outcome inv1 _ _ => ?_
      cases outcome with
      | ok certificate => exact fun _ _ => trivial
      | error cause => exact sound_recordFailure inv1
  · exact sound_recordFailure known

/-- A verification certifies on confirmed evidence only, and every call it makes is guaranteed. -/
theorem sound_verify {input : VerifyInput} (known : Inv w)
    : Sound maxReadEvents thread (fun _ _ => True) (verify input) w := by
  refine Protocol.Sound.bind known sound_gather fun w1 outcome inv1 _ stated => ?_
  cases outcome with
  | error failure => exact fun _ _ => trivial
  | ok gathered =>
      have held := (stated w1 (.refl inv1)).2 _ rfl
      exact Protocol.Sound.bind inv1 (sound_recordOutcome inv1 held) fun _ _ _ _ _ _ _ => trivial

end PiFabric.Timeline
