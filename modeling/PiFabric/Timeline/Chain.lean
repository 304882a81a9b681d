import PiFabric.Timeline.Rules

/-! Committed transitions form a chain of committed heads, for as long as no transition that lost a
compare-and-swap re-reads a head whose proposal is not committed.
-/

namespace PiFabric.Timeline

open JsString
open Interleaving (Prog Protocol)

variable {ι : Type} {w w' : World ι} {thread : ι} {maxReadEvents : Nat}

variable {events : List Event}

variable {transitionId : JsString}

theorem committed_of_mem (h : transitionId ∈ committedTransitionIds events)
    : ∃ event ∈ events, event.payload = .committed transitionId := by
  obtain ⟨event, member, same⟩ := List.mem_filterMap.mp (List.mem_filter.mp h).1
  refine ⟨event, member, ?_⟩
  cases found : event.payload <;> simp [found] at same
  rw [same]

theorem mem_stateEvents {event : Event} (h : event ∈ w.stateEvents maxReadEvents)
    : ∃ published ∈ w.log, published.event = event :=
  List.mem_map.mp (List.mem_of_mem_drop h)

variable {version : Nat} {head : Head}

theorem marked_of_readHead {found : Head} (sound : SoundHead w version head.toHeadValue)
    (seen : ∀ event ∈ events, ∃ published ∈ w.log, published.event = event)
    (h : readHead head events = some found)
    : found = head ∧ w.Marked head.transitionId := by
  have durable := sound.protocol
  obtain ⟨status, proof, marked⟩ := sound.proof
  simp only [readHead, durable, if_true] at h
  split at h
  · next readable =>
      refine ⟨(Option.some.inj h).symm, ?_⟩
      simp only [headReadable, Bool.and_eq_true, Bool.or_eq_true] at readable
      rcases readable.2 with committed | ⟨-, -, named⟩
      · refine marked ?_
        simpa [proofIs, proof] using committed
      · obtain ⟨event, member, same⟩ := committed_of_mem (List.contains_iff_mem.mp named)
        obtain ⟨published, inside, rfl⟩ := seen event member
        exact ⟨published, inside, same⟩
  · exact absurd h (by simp)

theorem Inv.headFound (h : Inv w) (found : (w.store.get .current).bind toHead = some head)
    : HeadAt w head.version head.toHeadValue ∧ head.version = w.store.version .current
      ∧ SoundHead w head.version head.toHeadValue := by
  obtain ⟨⟨value, version⟩, row, same⟩ := Option.bind_eq_some_iff.mp found
  obtain ⟨logged, current⟩ := h.store.read row
  obtain ⟨kept, rfl, sound⟩ := h.heads _ _ logged
  obtain rfl := Option.some.inj same
  exact ⟨logged, current.symm, sound⟩

/-- A head that a reader was given: it is marked, and it was the head at some time since. -/
structure ReadHead (before w : World ι) (head : Head) : Prop where
  marked : w.Marked head.transitionId
  known : HeadAt w head.version head.toHeadValue
  after : before.store.version .current ≤ head.version
  upto : head.version ≤ w.store.version .current

variable {before : World ι}

theorem ReadHead.grows (h : ReadHead before w head) (grown : Grows w w')
    : ReadHead before w' head :=
  ⟨grown.marked h.marked, grown.headAt h.known, h.after, h.upto.trans (grown.store.version _)⟩

theorem readHead_of_row {found : Head} (row : (before.store.get .current).bind toHead = some head)
    (known : Inv before) (grown : Grows before w)
    (seen : ∀ event ∈ events, ∃ published ∈ w.log, published.event = event)
    (read : Timeline.readHead head events = some found)
    : ReadHead before w found := by
  obtain ⟨logged, current, sound⟩ := known.headFound row
  obtain ⟨rfl, marked⟩ := marked_of_readHead (sound.grows grown) seen read
  exact ⟨marked, grown.headAt logged, current.ge, current.le.trans (grown.store.version _)⟩

theorem sound_getHead
    : Sound maxReadEvents thread (fun w' outcome => Later maxReadEvents thread w w'
        ∧ ∀ head, outcome = .ok (some head) → ReadHead w w' head) getHead.run w := by
  unfold getHead
  refine sound_get (fun w' _ later => ⟨later, by simp⟩) fun read later => ?_
  cases row : (read.store.get .current).bind toHead with
  | none => exact sound_pure fun w' next => ⟨later.trans next, by simp⟩
  | some head =>
      have since {w' : World ι} {found : Head} (h : ReadHead read w' found) : ReadHead w w' found :=
        { h with after := (later.grows.store.version _).trans h.after }
      simp only
      split
      · refine sound_read (fun w' _ next => ⟨later.trans next, by simp⟩) fun seen next => ?_
        refine sound_pure fun w' last => ⟨later.trans (next.trans last), fun found same => ?_⟩
        have result := Except.ok.inj same
        exact since ((readHead_of_row row later.inv next.grows (fun _ => mem_stateEvents)
          result).grows last.grows)
      · refine sound_pure fun w' next => ⟨later.trans next, fun found same => ?_⟩
        exact since (readHead_of_row row later.inv next.grows (by simp) (Except.ok.inj same))

theorem rejected_of_deletedIn {key : Key} {event : Event} (h : deletedIn key event = some version)
    : ∃ transitionId deleted, event.payload = .rejected transitionId deleted
        ∧ (key, version) ∈ deleted := by
  unfold deletedIn at h
  cases payload : event.payload <;> simp only [payload] at h
  case rejected transitionId deleted =>
    obtain ⟨item, first, rfl⟩ := Option.map_eq_some_iff.mp h
    have isKey : item.1 = key := by simpa using List.find?_some first
    exact ⟨transitionId, deleted, rfl, isKey ▸ List.mem_of_find?_eq_some first⟩
  all_goals exact absurd h (by simp)

/-- The last version that a rejection reports deleted, or 0: at neither was there a head. -/
theorem Inv.gone (h : Inv w)
    : Gone w (lastDeletedVersion .current (w.stateEvents maxReadEvents)) := by
  unfold lastDeletedVersion
  cases found : (w.stateEvents maxReadEvents).reverse.findSome? (deletedIn .current) with
  | none =>
      refine ⟨?_, Nat.zero_le _⟩
      cases logged : w.store.log .current 0 with
      | none => simpa using logged
      | some value => exact absurd (h.store.logged _ _ _ logged).1 (by omega)
  | some version =>
      obtain ⟨event, member, reported⟩ := List.exists_of_findSome?_eq_some found
      obtain ⟨transitionId, deleted, same, inside⟩ := rejected_of_deletedIn reported
      obtain ⟨published, listed, rfl⟩ := mem_stateEvents (List.mem_reverse.mp member)
      exact h.deleted _ listed _ _ same _ inside

/-- `versionOf` the head: its version, or one at which there was none. -/
theorem sound_versionOf {key : Key} {entry : Option Entry}
    : Sound maxReadEvents thread (fun w' outcome => Later maxReadEvents thread w w'
        ∧ ∀ version, outcome = .ok version → (∀ found, entry = some found → version = found.2)
          ∧ (entry = none → key = .current → Gone w' version)) (versionOf key entry).run w := by
  cases entry with
  | some found =>
      exact sound_pure fun w' later => ⟨later, fun version same =>
        ⟨fun other isFound => (Except.ok.inj same) ▸ (Option.some.inj isFound) ▸ rfl, by simp⟩⟩
  | none =>
      refine sound_read (fun w' _ later => ⟨later, by simp⟩) fun read later => ?_
      refine sound_pure fun w' next => ⟨later.trans next, fun version same => ⟨by simp, ?_⟩⟩
      rintro - rfl
      rw [← Except.ok.inj same]
      exact next.grows.gone later.inv.gone

variable {ts : Nat}

theorem sound_prepareFile {file : JsString}
    : Sound maxReadEvents thread (fun w' outcome => Later maxReadEvents thread w w'
        ∧ ∀ prepared, outcome = .ok prepared → ∀ update ∈ prepared.2, update.key ≠ .current)
      (prepareFile ts file).run w := by
  unfold prepareFile
  refine sound_measure fun measured_ measured later => ?_
  cases measured with
  | none => exact sound_pure fun w' next => ⟨later.trans next, by rintro _ ⟨rfl⟩; simp⟩
  | some found =>
      refine sound_get (fun w' _ next => ⟨later.trans next, by simp⟩) fun read next => ?_
      have here := later.trans next
      refine sound_then here.inv (fun w' _ last => ⟨here.trans last, by simp⟩) sound_versionOf
        fun w' version last _ => ?_
      refine sound_pure fun final after => ⟨(here.trans last).trans after, ?_⟩
      rintro _ ⟨rfl⟩ update ⟨rfl⟩
      simp

/-- Preparing looks only, and prepares no write of the head, by induction on the files. -/
theorem sound_prepareComplexity {files : List JsString} (known : Inv w)
    : Sound maxReadEvents thread (fun w' outcome => Later maxReadEvents thread w w'
        ∧ ∀ prepared, outcome = .ok prepared → ∀ update ∈ prepared.updates, update.key ≠ .current)
      (prepareComplexity ts files).run w := by
  induction files generalizing w with
  | nil => exact sound_pure fun w' later => ⟨later, by rintro _ ⟨rfl⟩; simp⟩
  | cons file rest ih =>
      refine sound_then known (fun w' _ later => ⟨later, by simp⟩) sound_prepareFile
        fun first prepared later keys => ?_
      refine sound_then later.inv (fun w' _ next => ⟨later.trans next, by simp⟩) (ih later.inv)
        fun second others next otherKeys => ?_
      refine sound_pure fun w' last => ⟨(later.trans next).trans last, ?_⟩
      rintro _ ⟨rfl⟩ update member
      rcases List.mem_append.mp member with own | other
      · exact keys _ rfl _ (Option.mem_toList.mp own)
      · exact otherKeys _ rfl _ other

variable {input : TransitionInput}

theorem sound_prepare (known : Inv w)
    : Sound maxReadEvents thread (fun w' outcome => Later maxReadEvents thread w w'
        ∧ ∀ prepared, outcome = .ok prepared →
          ∀ update ∈ (prepared.map (·.updates)).getD [], update.key ≠ .current)
      (prepare input ts).run w := by
  unfold prepare
  cases input.complexity with
  | none => exact sound_pure fun w' later => ⟨later, by rintro _ ⟨rfl⟩; simp⟩
  | some files =>
      refine sound_then known (fun w' _ later => ⟨later, by simp⟩) (sound_prepareComplexity known)
        fun read prepared later keys => ?_
      refine sound_pure fun w' next => ⟨later.trans next, ?_⟩
      rintro _ ⟨rfl⟩ update member
      exact keys _ rfl _ member

/-- A version that a transition may put its head at: the head that has it, if any, is marked, and
the one that the transition declared.
-/
structure Validated (w : World ι) (thread : ι) (fromLabel : Option JsString) (force : Bool)
    (version : Nat) : Prop where
  bound : version ≤ w.store.version .current
  proper : thread ∈ w.hasty ∨ (w.store.version .current = version →
    ∀ head, HeadAt w version head → w.Marked head.transitionId
      ∧ (force = false → ∀ declared, fromLabel = some declared → head.toLabel = declared))

variable {fromLabel : Option JsString} {force : Bool}

theorem Validated.grows (h : Validated w thread fromLabel force version) (grown : Grows w w')
    : Validated w' thread fromLabel force version := by
  refine ⟨h.bound.trans (grown.store.version _), h.proper.imp (grown.hasty _) ?_⟩
  intro valid same head known
  have still : w.store.version .current = version :=
    le_antisymm ((grown.store.version .current).trans same.le) h.bound
  have before : HeadAt w version head := (grown.store.frozen _ _ h.bound).symm.trans known
  obtain ⟨marked, declared⟩ := valid still head before
  exact ⟨grown.marked marked, declared⟩

/-- The thread has published these events at most. -/
def Publishes (w : World ι) (thread : ι) (events : List Event) : Prop :=
  ∀ published ∈ w.log, published.author = thread → published.event ∈ events

theorem Publishes.later (h : Publishes w thread events) (later : Later maxReadEvents thread w w')
    : Publishes w' thread events :=
  fun published member own => h published (later.rely published member own) own

/-- A proposal that its thread published, and nothing else. -/
structure Proposes (w : World ι) (thread : ι) (input : TransitionInput) (proposal : Proposal)
    : Prop where
  published : ∃ published ∈ w.log, published.author = thread ∧ published.event = proposal.event
  alone : Publishes w thread [proposal.event]
  payload : proposal.event.payload = .transition .proposed proposal.data
  declared : proposal.data.fromLabel = input.fromLabel
  updates : ∀ update ∈ proposal.updates, update.key ≠ .current
  validated : Validated w thread input.fromLabel input.force proposal.expectedVersion

variable {proposal : Proposal}

theorem Proposes.later (h : Proposes w thread input proposal)
    (later : Later maxReadEvents thread w w')
    : Proposes w' thread input proposal where
  published := by
    obtain ⟨published, member, rest⟩ := h.published
    exact ⟨published, later.grows.mem member, rest⟩
  alone := h.alone.later later
  payload := h.payload
  declared := h.declared
  updates := h.updates
  validated := h.validated.grows later.grows

theorem Gone.validated (h : Gone w version)
    : Validated w thread fromLabel force version :=
  ⟨h.2, .inr fun _ _ known => absurd (h.1.symm.trans known) (by simp)⟩

theorem ReadHead.validated (h : ReadHead before w head)
    (read : version ≤ before.store.version .current)
    (declared : force = false → ∀ declared, fromLabel = some declared → head.toLabel = declared)
    : Validated w thread fromLabel force version := by
  refine ⟨(read.trans h.after).trans h.upto, .inr fun current found known => ?_⟩
  have same : head.version = version := le_antisymm (h.upto.trans current.le) (read.trans h.after)
  have isHead := (h.known.symm.trans (same ▸ known))
  simp only [Option.some.injEq, Value.head.injEq] at isHead
  exact ⟨isHead ▸ h.marked, isHead ▸ declared⟩

theorem declared_of_checkFrom (h : checkFrom input (some head) = none)
    : input.force = false → ∀ declared, input.fromLabel = some declared →
      head.toLabel = declared := by
  intro free declared same
  simp only [checkFrom, same, free, Bool.not_false, Bool.true_and] at h
  by_contra apart
  simp [Ne.symm apart] at h

/-- The checks of a transition validate the version it goes by. -/
theorem validated_of_checks {middle : World ι} {current : Option Head} (known : Inv before)
    (grown : Grows middle w) (head : ∀ head, current = some head → ReadHead before middle head)
    (row : ∀ entry, before.store.get .current = some entry → version = entry.2)
    (gone : before.store.get .current = none → Gone w version)
    (readable : ¬((before.store.get .current).isSome && current.isNone) = true)
    (declared : checkFrom input current = none)
    : Validated w thread input.fromLabel input.force version := by
  cases physical : before.store.get .current with
  | none => exact (gone physical).validated
  | some entry =>
      cases current with
      | none => simp [physical] at readable
      | some found =>
          have read := head found rfl
          have same := row entry physical
          have current := (known.store.read physical).2
          refine (read.grows grown).validated ?_ (declared_of_checkFrom declared)
          rw [same, current]

/-- A proposal is published once its transition is validated, or nothing is. -/
theorem sound_propose (known : Inv w) (silent : Publishes w thread [])
    : Sound maxReadEvents thread (fun w' outcome =>
        (∀ proposal, outcome = .ok proposal → Proposes w' thread input proposal)
          ∧ ∀ failure, outcome = .error failure → Publishes w' thread [])
      (propose input).run w := by
  have refused {w₀ : World ι} (later : Later maxReadEvents thread w w₀)
      : Throws maxReadEvents thread (fun w' (outcome : Except Failure Proposal) =>
        (∀ proposal, outcome = .ok proposal → Proposes w' thread input proposal)
          ∧ ∀ failure, outcome = .error failure → Publishes w' thread []) w₀ :=
    fun w' failure next => ⟨by simp, fun _ _ => silent.later (later.trans next)⟩
  have start : Later maxReadEvents thread w w := .refl known
  unfold propose
  refine sound_get (refused start) fun w1 l1 => ?_
  refine sound_then l1.inv (refused l1) sound_getHead fun w2 current l2 read => ?_
  have l12 := l1.trans l2
  refine sound_then l12.inv (refused l12) sound_versionOf fun w3 version l3 versions => ?_
  have l13 := l12.trans l3
  refine sound_check (refused l13) fun readable => ?_
  refine sound_check (refused l13) fun declared => ?_
  have valid : Validated w3 thread input.fromLabel input.force version := by
    refine validated_of_checks l1.inv l3.grows (fun head same => read head (congrArg _ same))
      (versions _ rfl).1 (fun none_ => (versions _ rfl).2 none_ rfl) ?_ declared
    intro quarantined
    simp [quarantined] at readable
  refine sound_now fun w4 ts l4 => ?_
  have l14 := l13.trans l4
  refine sound_then l14.inv (refused l14) (sound_prepare l14.inv) fun w5 prepared l5 keys => ?_
  have l15 := l14.trans l5
  refine sound_check (refused l15) fun _ => ?_
  refine sound_send fun w6 l6 reply w7 performed => ?_
  have l16 := l15.trans l6
  rcases performs_publish performed with ⟨choice, appends, rfl, rfl⟩ | ⟨rfl, message, rfl⟩
  · have may : MayPublish w6 thread
        (.transition .proposed (proposalData input prepared ts)) none :=
      ⟨by simp [Payload.names], by simp, by simp, by simp⟩
    have guaranteed := @guaranteed_append _ _ _ maxReadEvents _ _ _ l16.inv appends may
    refine ⟨guaranteed, sound_pure fun w8 l8 => ⟨?_, by simp⟩⟩
    rintro _ ⟨rfl⟩
    refine Proposes.later ?_ l8
    refine ⟨⟨_, mem_append.mpr (.inr rfl), rfl, rfl⟩, ?_, rfl, rfl, keys _ rfl, ?_⟩
    · intro published member own
      rcases mem_append.mp member with before | rfl
      · exact absurd (silent.later l16 published before own) (by simp)
      · simp
    · exact valid.grows (((l4.grows.trans l5.grows).trans l6.grows).trans guaranteed.grows)
  · exact ⟨.refl l16.inv, sound_throw (refused l16)⟩

theorem declared_of_revalidate {input : AdvanceHeadInput} {head : HeadValue}
    (h : revalidate input (some (.head head, version)) = none)
    : input.force = false → ∀ declared, input.fromLabel = some declared →
      head.toLabel = declared := by
  intro free declared same
  simp only [revalidate, same, toHead, Option.map_some, free, Bool.not_false, Bool.true_and] at h
  by_contra apart
  simp [Ne.symm apart] at h

/-- What a transition goes by after it lost a compare-and-swap. -/
theorem validated_of_reread {input : AdvanceHeadInput} {found : Nat} (known : Inv w)
    (store : w'.store = w.store) (grown : Grows w w')
    (seen : thread ∈ w'.hasty ∨ w.HeadCommitted) (bound : found ≤ w.store.version .current)
    (declared : revalidate input (w.store.get .current) = none)
    : Validated w' thread input.fromLabel input.force
      (((w.store.get .current).map (·.2)).getD found) := by
  cases row : w.store.get .current with
  | none =>
      refine ⟨bound.trans (grown.store.version _), .inr fun current head logged => ?_⟩
      have live := known.store.live .current
      simp only [Option.map_none, Option.getD_none, store, HeadAt] at current logged
      simp [Cas.Store.get, live, current, logged] at row
  | some entry =>
      obtain ⟨value, version⟩ := entry
      obtain ⟨logged, current⟩ := known.store.read row
      obtain ⟨head, rfl, sound⟩ := known.heads _ _ logged
      refine ⟨current.ge.trans (grown.store.version _), ?_⟩
      rcases seen with hasty | calm
      · exact .inl hasty
      · refine .inr fun _ other otherLogged => ?_
        have same := (grown.headAt logged).symm.trans otherLogged
        simp only [Option.some.injEq, Value.head.injEq] at same
        subst same
        have marked := calm { head with version } (by simp [World.head, row, toHead])
        exact ⟨grown.marked marked, declared_of_revalidate (row ▸ declared)⟩

/-- A head that was put for a proposal, and what is restored if it is rolled back. -/
structure Advanced (w : World ι) (input : AdvanceHeadInput) (entry : Entry)
    (before : Option Entry) : Prop where
  recorded : ∃ advance ∈ w.advances, advance.input = input
  restorable : ∀ found, before = some found → w.store.log .current found.2 = some found.1

theorem Advanced.grows {input : AdvanceHeadInput} {entry : Entry} {before : Option Entry}
    (h : Advanced w input entry before) (grown : Grows w w')
    : Advanced w' input entry before := by
  obtain ⟨advance, member, same⟩ := h.recorded
  exact ⟨⟨advance, grown.advances.subset member, same⟩,
    fun found isFound => grown.store.log _ _ _ (h.restorable found isFound)⟩

/-- The put of a validated transition. -/
theorem guaranteed_advanced {input : AdvanceHeadInput} (h : Inv w)
    (fresh : ∀ version, SoundHead w version input.payload)
    (valid : Validated w thread input.fromLabel input.force version)
    (accepts : Accepts w .current version)
    : Guaranteed maxReadEvents thread w (w.advanced thread input) := by
  have proper : Proper w ⟨thread, input, w.head.map (·.toHeadValue)⟩ ∨ thread ∈ w.hasty := by
    rcases valid.proper with hasty | valid
    · exact .inr hasty
    · refine .inl fun replaced same => ?_
      obtain ⟨head, found, rfl⟩ := Option.map_eq_some_iff.mp same
      obtain ⟨known, current, -⟩ := h.headFound found
      have live := (h.store.live .current).trans (current ▸ known)
      have isVersion := accepts.live live
      exact valid isVersion _ (isVersion ▸ current ▸ known)
  have recorded := @guaranteed_advance _ _ thread maxReadEvents h _ proper
  have sound := (fresh (w.store.issue .current)).grows recorded.grows
  refine recorded.trans (guaranteed_write recorded.inv fun _ written same => ?_)
  exact ⟨input.payload, (Option.some.inj same).symm, sound⟩

theorem sound_advanceAttempts {input : AdvanceHeadInput} {attempts : Nat} (known : Inv w)
    (fresh : ∀ version, SoundHead w version input.payload)
    (valid : Validated w thread input.fromLabel input.force version)
    : Sound maxReadEvents thread (fun w' outcome => Later maxReadEvents thread w w'
        ∧ ∀ result, outcome = .ok result → Advanced w' input result.1 result.2)
      (advanceAttempts input attempts version).run w := by
  induction attempts generalizing w version with
  | zero => exact sound_throw fun w' _ later => ⟨later, by simp⟩
  | succ attempts ih =>
      refine sound_get (fun w' _ later => ⟨later, by simp⟩) fun w1 l1 => ?_
      refine sound_attempt_advance fun w2 l2 reply w3 performed => ?_
      have l12 := l1.trans l2
      have fresh2 := fun version => (fresh version).grows l12.grows
      have valid2 := valid.grows l12.grows
      rcases performs_advance performed with ⟨rfl, rfl, accepts⟩ | ⟨rfl, failure, rfl, refused⟩
      · have guaranteed := @guaranteed_advanced _ _ _ maxReadEvents _ _ l12.inv fresh2 valid2
          accepts
        have l13 := l12.trans (guaranteed.silent rfl)
        refine ⟨guaranteed, sound_pure fun w4 l4 => ⟨l13.trans l4, ?_⟩⟩
        rintro _ ⟨rfl⟩
        refine Advanced.grows ⟨⟨_, List.mem_append_right _ List.mem_cons_self, rfl⟩, ?_⟩ l4.grows
        intro found row
        have logged := (l1.inv.store.read row).1
        exact guaranteed.grows.store.log _ _ _ (l2.grows.store.log _ _ _ logged)
      · refine ⟨.refl l12.inv, ?_⟩
        cases refused with
        | failed message => exact sound_throw fun w' _ later => ⟨l12.trans later, by simp⟩
        | @conflict found bound =>
            refine sound_reread (fun w' _ later => ⟨l12.trans later, by simp⟩)
              fun w4 w5 l4 l5 store seen => ?_
            have l15 := (l12.trans l4).trans l5
            refine sound_check (fun w' _ later => ⟨l15.trans later, by simp⟩) fun declared => ?_
            refine Protocol.Sound.weaken (ih l15.inv
              (fun version => (fresh version).grows l15.grows)
              (validated_of_reread l4.inv store l5.grows seen
                (bound.trans (l4.grows.store.version _)) declared)) ?_
            exact fun w' outcome _ _ stated => ⟨l15.trans stated.1, stated.2⟩

theorem SoundHead.committed {value : HeadValue} (marked : w.Marked value.transitionId)
    (h : SoundHead w version value)
    : SoundHead w version { value with commitProof := some committedProof } where
  protocol := h.protocol
  proof := ⟨.committed, rfl, fun _ => marked⟩
  proposal := h.proposal
  certificate := by
    intro certificate found
    obtain ⟨certified, sound⟩ := h.certificate certificate found
    exact ⟨certified, sound.same ⟨rfl, rfl, rfl⟩⟩

/-- The head of a transition with a marker may say that it is committed. -/
theorem sound_markHeadCommitted {value : HeadValue} {pending : Entry}
    (fresh : ∀ version, SoundHead w version value) (marked : w.Marked value.transitionId)
    : Sound maxReadEvents thread (fun w' _ => Later maxReadEvents thread w w')
      (markHeadCommitted value pending).run w := by
  refine sound_attempt_put fun w1 l1 reply w2 performed => ?_
  rcases performs_put performed with ⟨rfl, rfl, -⟩ | ⟨rfl, failure, rfl, refused⟩
  · have may : MayWrite w1 .current
        (some (.head { value with commitProof := some committedProof })) := by
      refine fun _ written same => ⟨_, (Option.some.inj same).symm, ?_⟩
      exact ((fresh _).committed marked).grows l1.grows
    have guaranteed := @guaranteed_write _ _ thread maxReadEvents _ _ l1.inv may
    exact ⟨guaranteed, sound_pure fun w3 l3 => (l1.trans (guaranteed.silent rfl)).trans l3⟩
  · refine ⟨.refl l1.inv, ?_⟩
    cases refused with
    | failed message => exact sound_throw fun w' _ later => l1.trans later
    | conflict bound =>
        refine sound_get (fun w' _ later => l1.trans later) fun w3 l3 => ?_
        exact sound_pure fun w4 l4 => (l1.trans l3).trans l4

/-- What a rollback may put back: at the head, what was there. -/
def Restorable (w : World ι) (write : AppliedWrite) : Prop :=
  write.key = .current → ∀ before, write.before = some before →
    w.store.log .current before.2 = some before.1

variable {write : AppliedWrite}

theorem Restorable.grows (h : Restorable w write) (grown : Grows w w')
    : Restorable w' write :=
  fun current before same => grown.store.log _ _ _ (h current before same)

theorem Restorable.mayWrite {before : Entry} (h : Restorable w write) (known : Inv w)
    (same : write.before = some before)
    : MayWrite w write.key (some before.1) := by
  rintro current written ⟨rfl⟩
  obtain ⟨head, isHead, sound⟩ := known.heads _ _ (h current _ same)
  refine ⟨head, isHead, sound.restore ?_⟩
  exact ((known.store.logged _ _ _ (h current _ same)).2).trans_lt known.store.issue_bounds.1

/-- Undoing a write puts back what was there, or deletes; a deletion of the head is reported at its
version.
-/
theorem sound_undo (restorable : Restorable w write)
    : Sound maxReadEvents thread (fun w' outcome => Later maxReadEvents thread w w'
        ∧ ∀ version, outcome = .ok (some version) → write.key = .current → Gone w' version)
      (undo write).run w := by
  unfold undo
  cases same : write.before with
  | some before =>
      refine sound_send fun w1 l1 reply w2 performed => ?_
      rcases performs_put performed with ⟨rfl, rfl, -⟩ | ⟨rfl, failure, rfl, -⟩
      · have guaranteed := @guaranteed_write _ _ thread maxReadEvents _ _ l1.inv
          ((restorable.grows l1.grows).mayWrite l1.inv same)
        refine ⟨guaranteed, sound_pure fun w3 l3 => ?_⟩
        exact ⟨(l1.trans (guaranteed.silent rfl)).trans l3, by simp⟩
      · exact ⟨.refl l1.inv, sound_throw fun w' _ later => ⟨l1.trans later, by simp⟩⟩
  | none =>
      refine sound_send fun w1 l1 reply w2 performed => ?_
      rcases performs_delete performed with ⟨rfl, rfl⟩ | ⟨rfl, other⟩
      · have guaranteed := @guaranteed_write _ _ thread maxReadEvents write.key none l1.inv
          (fun _ _ => by simp)
        refine ⟨guaranteed, fun w3 l3 => ⟨(l1.trans (guaranteed.silent rfl)).trans l3, ?_⟩⟩
        rintro _ ⟨rfl⟩ current
        refine l3.grows.gone ⟨?_, ?_⟩
        · rw [current]
          exact Cas.Store.log_write_self none
        · rw [current]
          exact (Cas.Store.version_write_self none).ge
      · refine ⟨.refl l1.inv, fun w' later => ⟨l1.trans later, ?_⟩⟩
        exact fun version isOk => absurd isOk (other version)

/-- The versions of the head that a rollback reports deleted. -/
def ReportsGone (w : World ι) (deleted : List (Key × Nat)) : Prop :=
  ∀ version, (Key.current, version) ∈ deleted → Gone w version

theorem sound_rollbackWrites {writes : List AppliedWrite} (known : Inv w)
    (restorable : ∀ write ∈ writes, Restorable w write)
    : Sound maxReadEvents thread (fun w' rollback => Later maxReadEvents thread w w'
        ∧ ReportsGone w' rollback.deleted) (rollbackWrites writes) w := by
  induction writes generalizing w with
  | nil => exact fun w' later => ⟨later, by simp [ReportsGone]⟩
  | cons write rest ih =>
      refine Protocol.Sound.bind known (sound_undo (restorable write List.mem_cons_self))
        fun w1 undone inv1 _ stated => ?_
      obtain ⟨l1, gone⟩ := stated w1 (.refl inv1)
      refine Protocol.Sound.bind inv1 (ih inv1 fun other member =>
        (restorable other (List.mem_cons_of_mem _ member)).grows l1.grows)
        fun w2 others inv2 _ rolled => ?_
      obtain ⟨l2, others_⟩ := rolled w2 (.refl inv2)
      intro w3 l3
      refine ⟨(l1.trans l2).trans l3, fun version inside => ?_⟩
      have grown := l2.grows.trans l3.grows
      rcases undone with failure | ⟨_ | deletedAt⟩
      · exact l3.grows.gone (others_ version inside)
      · exact l3.grows.gone (others_ version inside)
      · rcases List.mem_cons.mp inside with first | other
        · obtain ⟨current, rfl⟩ := Prod.mk.inj first
          exact grown.gone (gone _ rfl current.symm)
        · exact l3.grows.gone (others_ version other)

def Unmarked (w : World ι) (thread : ι) : Prop :=
  ∀ published ∈ w.log, published.author = thread →
    ∀ transitionId, published.event.payload ≠ .committed transitionId

theorem Unmarked.later (h : Unmarked w thread) (later : Later maxReadEvents thread w w')
    : Unmarked w' thread :=
  fun published member own => h published (later.rely published member own) own

/-- What a thread published is its own proposal, whose transition no other thread names. -/
theorem Inv.author_eq (h : Inv w) {proposal published : Published ι} (member : proposal ∈ w.log)
    (inside : published ∈ w.log) (names : published.event.payload.names = some proposal.event.id)
    : published.author = proposal.author := by
  obtain ⟨other, listed, same, author⟩ := h.authored _ inside _ names
  rw [← author, List.inj_on_of_nodup_map h.ids listed member same]

/-- A thread without a marker has not committed what it proposed. -/
theorem Unmarked.not_marked (h : Unmarked w thread) (known : Inv w) {proposal : Published ι}
    (member : proposal ∈ w.log) (own : proposal.author = thread)
    : ¬w.Marked proposal.event.id := by
  rintro ⟨published, inside, same⟩
  have author := known.author_eq member inside (by rw [same]; rfl)
  exact h published inside (author.trans own) _ same

/-- The proposals of the thread have their markers. -/
def Settled (w : World ι) (thread : ι) : Prop :=
  ∀ published ∈ w.log, published.author = thread → ∀ data,
    published.event.payload = .transition .proposed data → w.Marked published.event.id

theorem Settled.later (h : Settled w thread) (later : Later maxReadEvents thread w w')
    : Settled w' thread :=
  fun published member own data same =>
    later.grows.marked (h published (later.rely published member own) own data same)

/-- A transition that fails before its marker has none; any other has one. -/
def Outcome (w : World ι) (thread : ι)
    : Except TransitionError (Event × Option Head) → Prop
  | .ok _ | .error (.proofPending _) => Settled w thread
  | .error (.refused _) | .error (.rejected ..) => Unmarked w thread

theorem sound_publishRejections {pieces : List (List (Key × Nat))} (known : Inv w)
    (gone : ∀ piece ∈ pieces, ReportsGone w piece)
    (proposed : ∃ proposal ∈ w.log, proposal.event.id = transitionId ∧ proposal.author = thread)
    (unmarked : Unmarked w thread)
    : Sound maxReadEvents thread (fun w' _ => Unmarked w' thread)
      (publishRejections transitionId pieces).run w := by
  induction pieces generalizing w with
  | nil => exact sound_pure fun w' later => unmarked.later later
  | cons piece rest ih =>
      refine sound_send fun w1 l1 reply w2 performed => ?_
      obtain ⟨proposal, member, named, own⟩ := proposed
      have here := l1.grows.mem member
      rcases performs_publish performed with ⟨choice, appends, rfl, rfl⟩ | ⟨rfl, message, rfl⟩
      · have may : MayPublish w1 thread (.rejected transitionId piece) none := by
          refine ⟨?_, by simp, ?_, by simp⟩
          · rintro _ ⟨rfl⟩
            exact ⟨proposal, here, named, own⟩
          · rintro _ _ ⟨rfl, rfl⟩
            refine ⟨?_, fun version inside => l1.grows.gone (gone _ List.mem_cons_self _ inside)⟩
            rw [← named]
            exact (unmarked.later l1).not_marked l1.inv here own
        have guaranteed := @guaranteed_append _ _ _ maxReadEvents _ _ _ l1.inv appends may
        refine ⟨guaranteed, ih guaranteed.inv ?_ ?_ ?_⟩
        · exact fun other inside version reported => guaranteed.grows.gone
            (l1.grows.gone (gone other (List.mem_cons_of_mem _ inside) version reported))
        · exact ⟨proposal, guaranteed.grows.mem here, named, own⟩
        · intro published inside mine other
          rcases mem_append.mp inside with before | rfl
          · exact unmarked.later l1 published before mine other
          · simp
      · exact ⟨.refl l1.inv, sound_throw fun w' _ later => unmarked.later (l1.trans later)⟩

theorem sound_reject {writes : List AppliedWrite} {cause : Failure} (known : Inv w)
    (restorable : ∀ write ∈ writes, Restorable w write)
    (proposed : ∃ proposal ∈ w.log, proposal.event.id = transitionId ∧ proposal.author = thread)
    (unmarked : Unmarked w thread)
    : Sound maxReadEvents thread (fun w' error => Outcome w' thread (.error error))
      (reject transitionId writes cause) w := by
  refine Protocol.Sound.bind known (sound_rollbackWrites known restorable)
    fun w1 rollback inv1 _ stated => ?_
  obtain ⟨l1, gone⟩ := stated w1 (.refl inv1)
  obtain ⟨proposal, member, rest⟩ := proposed
  refine Protocol.Sound.bind inv1 (sound_publishRejections inv1 ?_
    ⟨proposal, l1.grows.mem member, rest⟩ (unmarked.later l1)) fun w2 reported inv2 _ quiet => quiet
  exact fun piece inside version reported => gone version (mem_of_mem_chunks inside reported)

variable {applied : List AppliedWrite}

/-- The ledger writes touch no head, by induction on them. -/
theorem sound_applyUpdates {updates : List LedgerUpdate} (known : Inv w)
    (keys : ∀ update ∈ updates, update.key ≠ .current)
    (others : ∀ write ∈ applied, write.key ≠ .current)
    : Sound maxReadEvents thread (fun w' result => Later maxReadEvents thread w w'
        ∧ ∀ write ∈ result.1, write.key ≠ .current) (applyUpdates updates applied) w := by
  induction updates generalizing w applied with
  | nil => exact fun w' later => ⟨later, others⟩
  | cons update rest ih =>
      have key := keys update List.mem_cons_self
      refine sound_send fun w1 l1 reply w2 performed => ?_
      rcases performs_put performed with ⟨rfl, rfl, -⟩ | ⟨rfl, failure, rfl, -⟩
      · have guaranteed := @guaranteed_write _ _ thread maxReadEvents update.key
          (some (.ledger update.value)) l1.inv (fun current => absurd current key)
        have l2 := l1.trans (guaranteed.silent rfl)
        refine ⟨guaranteed, Protocol.Sound.weaken (ih guaranteed.inv
          (fun other inside => keys other (List.mem_cons_of_mem _ inside)) ?_) ?_⟩
        · exact List.forall_mem_cons.mpr ⟨key, others⟩
        · exact fun w' result _ _ stated => ⟨l2.trans stated.1, stated.2⟩
      · exact ⟨.refl l1.inv, fun w' later => ⟨l1.trans later, others⟩⟩

theorem Proposes.soundHead (h : Proposes w thread input proposal) (version : Nat)
    : SoundHead w version (headPayload proposal) where
  protocol := rfl
  proof := ⟨.pending, rfl, by simp⟩
  proposal := by
    obtain ⟨published, member, -, same⟩ := h.published
    refine ⟨published, member, _, rfl, same.trans ?_⟩
    calc proposal.event
        = ⟨proposal.event.id, proposal.event.sequence, proposal.event.payload⟩ := rfl
      _ = ⟨_, _, .transition .proposed proposal.data⟩ := by rw [h.payload]; rfl
  certificate := by simp [headPayload]

theorem Proposes.unmarked (h : Proposes w thread input proposal)
    : Unmarked w thread := by
  intro published member own transitionId same
  rw [List.mem_singleton.mp (h.alone published member own), h.payload] at same
  exact absurd same (by simp)

theorem Proposes.proposed (h : Proposes w thread input proposal)
    : ∃ published ∈ w.log, published.event.id = proposal.event.id ∧ published.author = thread := by
  obtain ⟨published, member, own, same⟩ := h.published
  exact ⟨published, member, same ▸ rfl, own⟩

/-- The marker of a proposal that was advanced may be published: nobody rejected it. -/
theorem Proposes.mayCommit (h : Proposes w thread input proposal) (known : Inv w)
    (advanced : ∃ advance ∈ w.advances,
      advance.input.payload.transitionId = proposal.event.id)
    : MayPublish w thread (.committed proposal.event.id) none := by
  obtain ⟨published, member, own, same⟩ := h.published
  refine ⟨?_, ?_, by simp, by simp⟩
  · rintro _ ⟨rfl⟩
    exact ⟨published, member, same ▸ rfl, own⟩
  · rintro _ ⟨rfl⟩
    refine ⟨?_, advanced⟩
    rintro ⟨other, inside, deleted, rejected⟩
    have author := known.author_eq member inside (by rw [rejected, same]; rfl)
    have isProposal := List.mem_singleton.mp (h.alone other inside (author.trans own))
    rw [isProposal, h.payload] at rejected
    exact absurd rejected (by simp)

/-- The writes of a ledger are no heads to restore. -/
theorem restorable_of_keys (keys : ∀ write ∈ applied, write.key ≠ .current)
    : ∀ write ∈ applied, Restorable w write :=
  fun write inside current => absurd current (keys write inside)

theorem Proposes.settled {choice : Choice} (h : Proposes w thread input proposal)
    (marked : (w.append thread choice (.committed proposal.event.id) none).Marked proposal.event.id)
    : Settled (w.append thread choice (.committed proposal.event.id) none) thread := by
  intro published member own data same
  rcases mem_append.mp member with before | rfl
  · rw [List.mem_singleton.mp (h.alone published before own)]
    exact marked
  · exact absurd same (by simp)

/-- The head is advanced only to a proposal, and its marker published only after that. -/
theorem sound_commit (known : Inv w) (h : Proposes w thread input proposal)
    (keys : ∀ write ∈ applied, write.key ≠ .current)
    : Sound maxReadEvents thread (fun w' outcome => Outcome w' thread outcome)
      (commit input proposal applied) w := by
  have advances := @sound_advanceAttempts _ _ thread maxReadEvents _ (advanceInput input proposal)
    casRetryLimit known h.soundHead h.validated
  refine Protocol.Sound.bind known advances fun w1 outcome inv1 _ stated => ?_
  obtain ⟨l1, advanced⟩ := stated w1 (.refl inv1)
  have h1 := h.later l1
  cases outcome with
  | error failure =>
      exact (sound_reject inv1 (restorable_of_keys keys) h1.proposed h1.unmarked).map
  | ok result =>
      obtain ⟨entry, before⟩ := result
      obtain ⟨⟨advance, recorded, same⟩, restorable⟩ := advanced _ rfl
      refine sound_send fun w2 l2 reply w3 performed => ?_
      have h2 := h1.later l2
      rcases performs_publish performed with ⟨choice, appends, rfl, rfl⟩ | ⟨rfl, message, rfl⟩
      · have may := h2.mayCommit l2.inv
          ⟨advance, l2.grows.advances.subset recorded, same ▸ rfl⟩
        have guaranteed := @guaranteed_append _ _ _ maxReadEvents _ _ _ l2.inv appends may
        have marked : (w2.append thread choice (.committed proposal.event.id) none).Marked
            (headPayload proposal).transitionId := marked_append.mpr (.inr rfl)
        have settled := h2.settled marked
        refine ⟨guaranteed, Protocol.Sound.bind guaranteed.inv (sound_markHeadCommitted
          (fun version => (h2.soundHead version).grows guaranteed.grows) marked) ?_⟩
        intro w4 committed inv4 _ later
        cases committed <;> exact fun w5 l5 => settled.later (later w5 l5)
      · refine ⟨.refl l2.inv, (sound_reject l2.inv ?_ h2.proposed h2.unmarked).map⟩
        refine List.forall_mem_cons.mpr ⟨fun _ found isFound => ?_, restorable_of_keys keys⟩
        exact l2.grows.store.log _ _ _ (restorable found isFound)

theorem sound_transition (known : Inv w) (silent : Publishes w thread [])
    : Sound maxReadEvents thread (fun w' outcome => Outcome w' thread outcome)
      (transition input) w := by
  refine Protocol.Sound.bind known (sound_propose known silent) fun w1 outcome inv1 _ stated => ?_
  cases outcome with
  | error failure =>
      intro w2 l2 published member own
      exact absurd ((stated w2 l2).2 _ rfl published member own) (by simp)
  | ok proposal =>
      have h1 := (stated w1 (.refl inv1)).1 _ rfl
      refine Protocol.Sound.bind inv1 (sound_applyUpdates inv1 h1.updates (by simp))
        fun w2 result inv2 _ wrote => ?_
      obtain ⟨l2, keys⟩ := wrote w2 (.refl inv2)
      obtain ⟨applied, failed⟩ := result
      have h2 := h1.later l2
      cases failed with
      | none => exact sound_commit inv2 h2 keys
      | some failure =>
          exact (sound_reject inv2 (restorable_of_keys keys) h2.proposed h2.unmarked).map

end PiFabric.Timeline
