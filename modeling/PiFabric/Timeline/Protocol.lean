import PiFabric.Timeline.Verify

/-! What holds of every world that state stores work on, and what each of their calls keeps. -/

namespace PiFabric.Timeline

open JsString
open Interleaving (Prog Protocol)

variable {ι : Type} {w w' : World ι} {thread : ι} {maxReadEvents : Nat}

/-- Nothing that was published, put or seen is forgotten. -/
structure Grows (w w' : World ι) : Prop where
  store : w.store.Extends w'.store
  log : w.log <+: w'.log
  advances : w.advances <+: w'.advances
  hasty : ∀ thread ∈ w.hasty, thread ∈ w'.hasty

/-- The others publish nothing in a thread's name. -/
def Rely (thread : ι) (w w' : World ι) : Prop :=
  ∀ published ∈ w'.log, published.author = thread → published ∈ w.log

theorem Grows.refl (w : World ι) : Grows w w :=
  ⟨.refl _, List.prefix_refl _, List.prefix_refl _, fun _ => id⟩

variable {third : World ι}

theorem Grows.trans (hf : Grows w w') (hs : Grows w' third) : Grows w third :=
  ⟨hf.store.trans hs.store, hf.log.trans hs.log, hf.advances.trans hs.advances,
    fun thread seen => hs.hasty thread (hf.hasty thread seen)⟩

theorem Rely.trans (hf : Rely thread w w') (hs : Rely thread w' third)
    : Rely thread w third :=
  fun published member own => hf published (hs published member own) own

theorem Grows.mem (h : Grows w w') {published : Published ι} (member : published ∈ w.log)
    : published ∈ w'.log :=
  h.log.subset member

theorem Grows.marked (h : Grows w w') {transitionId : JsString} (marked : w.Marked transitionId)
    : w'.Marked transitionId := by
  obtain ⟨published, member, same⟩ := marked
  exact ⟨published, h.mem member, same⟩

/-- A version of the head at which there was none. -/
def Gone (w : World ι) (version : Nat) : Prop :=
  w.store.log .current version = none ∧ version ≤ w.store.version .current

def HeadAt (w : World ι) (version : Nat) (head : HeadValue) : Prop :=
  w.store.log .current version = some (.head head)

variable {version : Nat}

theorem Grows.gone (h : Grows w w') (gone : Gone w version) : Gone w' version :=
  ⟨(h.store.frozen _ _ gone.2).trans gone.1, gone.2.trans (h.store.version _)⟩

variable {head : HeadValue}

theorem Grows.headAt (h : Grows w w') (known : HeadAt w version head)
    : HeadAt w' version head :=
  h.store.log _ _ _ known

structure SameTransition (left right : HeadValue) : Prop where
  transitionId : left.transitionId = right.transitionId
  label : left.label = right.label
  toLabel : left.toLabel = right.toLabel

/-- A certified event whose verification read a head, at the version the head had from then until
the event was published.
-/
structure Verified (published : Published ι) (evidence : Evidence) (head : Head) : Prop where
  carries : published.evidence = some evidence
  read : evidence.head = some head
  unchanged : published.headVersion = head.version

def Certifies (published : Published ι) (certificate : Certificate) : Prop :=
  published.event.id = certificate.certificateId
    ∧ published.event.sequence = certificate.sequence
    ∧ published.event.isCertified = true

/-- A certificate was put with its head, and counts at no other version. -/
structure SoundCertificate (w : World ι) (version : Nat) (head : HeadValue)
    (certificate : Certificate) (certified : CertificationHead) : Prop where
  names : certificate.head = some certified
  bound : certified.version ≤ version
  verified : certified.version = version → ∃ published ∈ w.log,
    Certifies published certificate ∧ ∃ evidence verificationHead,
      Verified published evidence verificationHead
        ∧ SameTransition verificationHead.toHeadValue head

theorem SameTransition.trans {first second third : HeadValue} (hf : SameTransition first second)
    (hs : SameTransition second third)
    : SameTransition first third :=
  ⟨hf.transitionId.trans hs.transitionId, hf.label.trans hs.label, hf.toLabel.trans hs.toLabel⟩

theorem SoundCertificate.same {other : HeadValue} {certificate : Certificate}
    {certified : CertificationHead} (h : SoundCertificate w version head certificate certified)
    (same : SameTransition head other)
    : SoundCertificate w version other certificate certified := by
  refine ⟨h.names, h.bound, fun current => ?_⟩
  obtain ⟨published, member, certifies, evidence, verificationHead, verified, read⟩ :=
    h.verified current
  exact ⟨published, member, certifies, evidence, verificationHead, verified, read.trans same⟩

structure SoundHead (w : World ι) (version : Nat) (head : HeadValue) : Prop where
  protocol : head.protocolVersion = some durableHeadProtocolVersion
  proof : ∃ status, head.commitProof = some ⟨headCommitProofVersion, status⟩
    ∧ (status = .committed → w.Marked head.transitionId)
  proposal : ∃ published ∈ w.log, ∃ sequence, head.transitionSequence = some sequence
    ∧ published.event = ⟨head.transitionId, sequence, .transition .proposed head.toTransition⟩
  certificate : ∀ certificate, head.certificate = some certificate →
    ∃ certified, SoundCertificate w version head certificate certified

theorem SoundHead.grows (h : SoundHead w version head) (grown : Grows w w')
    : SoundHead w' version head where
  protocol := h.protocol
  proof := by
    obtain ⟨status, proof, marked⟩ := h.proof
    exact ⟨status, proof, fun same => grown.marked (marked same)⟩
  proposal := by
    obtain ⟨published, member, rest⟩ := h.proposal
    exact ⟨published, grown.mem member, rest⟩
  certificate := by
    intro certificate found
    obtain ⟨certified, sound⟩ := h.certificate certificate found
    refine ⟨certified, sound.names, sound.bound, fun same => ?_⟩
    obtain ⟨published, member, rest⟩ := sound.verified same
    exact ⟨published, grown.mem member, rest⟩

/-- A head that is put once more, at a later version, has no current certificate. -/
theorem SoundHead.restore {later : Nat} (h : SoundHead w version head) (after : version < later)
    : SoundHead w later head where
  protocol := h.protocol
  proof := h.proof
  proposal := h.proposal
  certificate := by
    intro certificate found
    obtain ⟨certified, sound⟩ := h.certificate certificate found
    refine ⟨certified, sound.names, sound.bound.trans after.le, fun same => ?_⟩
    exact absurd sound.bound (by omega)

def Recorded (w : World ι) (record : TransitionRecord) : Prop :=
  ∃ published ∈ w.log, published.event.id = record.transitionId ∧ ∃ phase, ∃ data : Transition,
    published.event.payload = .transition phase data
      ∧ data.label = record.label ∧ data.toLabel = record.toLabel

structure Confirmed (w : World ι) (headVersion : Nat) (data : Verdict) (evidence : Evidence)
    : Prop where
  ran : evidence.results ≠ []
  commands : evidence.results.map (fun verified => (verified.claim, verified.command))
    = commandsOf evidence.targets
  confirmed : ∀ verified ∈ evidence.results, verified.result.status = .confirmed
  records : ∀ record ∈ evidence.targets, Recorded w record
  targets : ∀ target ∈ data.targets, ∃ record ∈ evidence.targets, target = boundedTarget record
  identity : data.head = evidence.head.map headIdentity
  head : ∀ head, evidence.head = some head →
    HeadAt w head.version head.toHeadValue ∧ head.version ≤ headVersion

theorem Grows.recorded (h : Grows w w') {record : TransitionRecord} (known : Recorded w record)
    : Recorded w' record := by
  obtain ⟨published, member, rest⟩ := known
  exact ⟨published, h.mem member, rest⟩

theorem Confirmed.grows {headVersion : Nat} {data : Verdict} {evidence : Evidence}
    (h : Confirmed w headVersion data evidence) (grown : Grows w w')
    : Confirmed w' headVersion data evidence :=
  { h with
    records := fun record member => grown.recorded (h.records record member)
    head := fun head found =>
      ⟨grown.headAt (h.head head found).1, (h.head head found).2⟩ }

/-- The transition that a marker or a rejection names. -/
def Payload.names : Payload → Option JsString
  | .committed transitionId => some transitionId
  | .rejected transitionId _ => some transitionId
  | _ => none

def Proper (w : World ι) (advance : Advance ι) : Prop :=
  ∀ head, advance.replaced = some head → w.Marked head.transitionId
    ∧ (advance.input.force = false → ∀ declared, advance.input.fromLabel = some declared →
      head.toLabel = declared)

theorem Proper.grows {advance : Advance ι} (h : Proper w advance) (grown : Grows w w')
    : Proper w' advance :=
  fun head found => ⟨grown.marked (h head found).1, (h head found).2⟩

structure Inv (w : World ι) : Prop where
  store : w.store.Sound
  ids : (w.log.map (·.event.id)).Nodup
  sequences : w.log.Pairwise fun left right => left.event.sequence < right.event.sequence
  sized : ∀ published ∈ w.log, IsEventId published.event.id ∧ 0 < published.event.sequence
    ∧ isSafeInteger published.event.sequence = true
  headVersions : ∀ published ∈ w.log, published.headVersion ≤ w.store.version .current
  authored : ∀ published ∈ w.log, ∀ transitionId,
    published.event.payload.names = some transitionId →
      ∃ proposal ∈ w.log, proposal.event.id = transitionId ∧ proposal.author = published.author
  exclusive : ∀ transitionId, w.Marked transitionId → ¬w.Rejected transitionId
  advanced : ∀ transitionId, w.Marked transitionId →
    ∃ advance ∈ w.advances, advance.input.payload.transitionId = transitionId
  deleted : ∀ published ∈ w.log, ∀ transitionId deleted,
    published.event.payload = .rejected transitionId deleted →
      ∀ version, (Key.current, version) ∈ deleted → Gone w version
  evidence : ∀ published ∈ w.log, ∀ data, published.event.payload = .certified data →
    ∃ evidence, published.evidence = some evidence
      ∧ Confirmed w published.headVersion data evidence
  heads : ∀ version value, w.store.log .current version = some value →
    ∃ head, value = .head head ∧ SoundHead w version head
  advances : ∀ advance ∈ w.advances, Proper w advance ∨ advance.author ∈ w.hasty

theorem inv_emptyWorld : Inv (emptyWorld ι) where
  store := Cas.Store.sound_empty
  ids := List.nodup_nil
  sequences := List.Pairwise.nil
  sized := by simp [emptyWorld]
  headVersions := by simp [emptyWorld]
  authored := by simp [emptyWorld]
  exclusive := by simp [emptyWorld, World.Marked]
  advanced := by simp [emptyWorld, World.Marked]
  deleted := by simp [emptyWorld]
  evidence := by simp [emptyWorld]
  heads := by simp [emptyWorld, Cas.empty]
  advances := by simp [emptyWorld]

def protocol (ι : Type) (maxReadEvents : Nat) : Protocol ι (World ι) Call Reply where
  perform := Performs maxReadEvents
  inv := Inv
  grows := Grows
  rely := Rely
  grows_refl := .refl
  grows_trans := .trans
  rely_refl := fun _ _ _ member _ => member
  rely_trans := .trans

abbrev Guaranteed (maxReadEvents : Nat) (thread : ι) (w w' : World ι) : Prop :=
  (protocol ι maxReadEvents).Guarantees thread w w'

abbrev Later (maxReadEvents : Nat) (thread : ι) (w w' : World ι) : Prop :=
  (protocol ι maxReadEvents).Later thread w w'

theorem Guaranteed.refl (h : Inv w) : Guaranteed maxReadEvents thread w w :=
  ⟨h, .refl w, fun _ _ _ member _ => member⟩

theorem Guaranteed.trans (hf : Guaranteed maxReadEvents thread w w')
    (hs : Guaranteed maxReadEvents thread w' third)
    : Guaranteed maxReadEvents thread w third :=
  ⟨hs.inv, hf.grows.trans hs.grows,
    fun other apart => (hf.others other apart).trans (hs.others other apart)⟩

/-- What an event must say for its author to publish it. -/
structure MayPublish (w : World ι) (thread : ι) (payload : Payload) (evidence : Option Evidence)
    : Prop where
  named : ∀ transitionId, payload.names = some transitionId →
    ∃ proposal ∈ w.log, proposal.event.id = transitionId ∧ proposal.author = thread
  marker : ∀ transitionId, payload = .committed transitionId → ¬w.Rejected transitionId
    ∧ ∃ advance ∈ w.advances, advance.input.payload.transitionId = transitionId
  rejection : ∀ transitionId deleted, payload = .rejected transitionId deleted →
    ¬w.Marked transitionId ∧ ∀ version, (Key.current, version) ∈ deleted → Gone w version
  certified : ∀ data, payload = .certified data →
    ∃ found, evidence = some found ∧ Confirmed w (w.store.version .current) data found

section
variable {choice : Choice} {payload : Payload} {evidence : Option Evidence}

theorem mem_append {published : Published ι}
    : published ∈ (w.append thread choice payload evidence).log ↔ published ∈ w.log
      ∨ published = ⟨⟨choice.id, choice.sequence, payload⟩, thread, w.store.version .current,
        evidence⟩ := by
  simp [World.append]

theorem grows_append : Grows w (w.append thread choice payload evidence) :=
  ⟨.refl _, List.prefix_append .., List.prefix_refl _, fun _ => id⟩

variable {transitionId : JsString}

theorem marked_append
    : (w.append thread choice payload evidence).Marked transitionId
      ↔ w.Marked transitionId ∨ payload = .committed transitionId := by
  constructor
  · rintro ⟨published, member, same⟩
    rcases mem_append.mp member with before | rfl
    · exact .inl ⟨published, before, same⟩
    · exact .inr same
  · rintro (marked | same)
    · exact grows_append.marked marked
    · exact ⟨_, mem_append.mpr (.inr rfl), same⟩

theorem rejected_append
    : (w.append thread choice payload evidence).Rejected transitionId
      ↔ w.Rejected transitionId ∨ ∃ deleted, payload = .rejected transitionId deleted := by
  constructor
  · rintro ⟨published, member, deleted, same⟩
    rcases mem_append.mp member with before | rfl
    · exact .inl ⟨published, before, deleted, same⟩
    · exact .inr ⟨deleted, same⟩
  · rintro (⟨published, member, deleted, same⟩ | ⟨deleted, same⟩)
    · exact ⟨published, grows_append.mem member, deleted, same⟩
    · exact ⟨_, mem_append.mpr (.inr rfl), deleted, same⟩

theorem Inv.exclusive_append (h : Inv w) (may : MayPublish w thread payload evidence)
    (marked : (w.append thread choice payload evidence).Marked transitionId)
    : ¬(w.append thread choice payload evidence).Rejected transitionId := by
  intro rejected
  rcases marked_append.mp marked with before | marker <;>
    rcases rejected_append.mp rejected with rejectedBefore | ⟨deleted, rejection⟩
  · exact h.exclusive _ before rejectedBefore
  · exact (may.rejection _ _ rejection).1 before
  · exact (may.marker _ marker).1 rejectedBefore
  · exact absurd (marker.symm.trans rejection) (by simp)

/-- An event that may be published keeps the invariant. -/
theorem Inv.append (h : Inv w) (appends : w.Appends choice)
    (may : MayPublish w thread payload evidence)
    : Inv (w.append thread choice payload evidence) := by
  obtain ⟨eventId, fresh, above, positive, safe⟩ := appends
  have grown : Grows w (w.append thread choice payload evidence) := grows_append
  constructor
  case store => exact h.store
  case ids =>
    simp only [World.append, List.map_append, List.map_cons, List.map_nil]
    refine List.nodup_append.mpr ⟨h.ids, List.nodup_singleton _, ?_⟩
    intro id inside other single same
    rw [List.mem_singleton.mp single] at same
    obtain ⟨published, member, rfl⟩ := List.mem_map.mp inside
    exact fresh _ (List.mem_map_of_mem member) same
  case sequences =>
    refine List.pairwise_append.mpr ⟨h.sequences, List.pairwise_singleton .., ?_⟩
    intro published member last single
    rw [List.mem_singleton.mp single]
    exact above _ (List.mem_map_of_mem member)
  case sized =>
    intro published member
    rcases mem_append.mp member with before | rfl
    · exact h.sized _ before
    · exact ⟨eventId, positive, safe⟩
  case headVersions =>
    intro published member
    rcases mem_append.mp member with before | rfl
    · exact h.headVersions _ before
    · exact le_rfl
  case authored =>
    intro published member transitionId names
    rcases mem_append.mp member with before | rfl
    · obtain ⟨proposal, proposed, rest⟩ := h.authored _ before _ names
      exact ⟨proposal, grown.mem proposed, rest⟩
    · obtain ⟨proposal, proposed, rest⟩ := may.named _ names
      exact ⟨proposal, grown.mem proposed, rest⟩
  case exclusive => exact fun _ marked => h.exclusive_append may marked
  case advanced =>
    intro transitionId marked
    rcases marked_append.mp marked with before | marker
    · exact h.advanced _ before
    · exact (may.marker _ marker).2
  case deleted =>
    intro published member transitionId deleted same version inside
    rcases mem_append.mp member with before | rfl
    · exact grown.gone (h.deleted _ before _ _ same _ inside)
    · exact grown.gone ((may.rejection _ _ same).2 _ inside)
  case evidence =>
    intro published member data same
    rcases mem_append.mp member with before | rfl
    · obtain ⟨found, carries, confirmed⟩ := h.evidence _ before _ same
      exact ⟨found, carries, confirmed.grows grown⟩
    · obtain ⟨found, carries, confirmed⟩ := may.certified _ same
      exact ⟨found, carries, confirmed.grows grown⟩
  case heads =>
    intro version value logged
    obtain ⟨head, same, sound⟩ := h.heads _ _ logged
    exact ⟨head, same, sound.grows grown⟩
  case advances =>
    exact fun advance member => (h.advances _ member).imp (fun proper => proper.grows grown) id

theorem guaranteed_append (h : Inv w) (appends : w.Appends choice)
    (may : MayPublish w thread payload evidence)
    : Guaranteed maxReadEvents thread w (w.append thread choice payload evidence) := by
  refine ⟨h.append appends may, grows_append, fun other apart published member own => ?_⟩
  rcases mem_append.mp member with before | rfl
  · exact before
  · exact absurd own.symm apart

end

/-- What may be put at a key: at the head, a sound head. -/
def MayWrite (w : World ι) (key : Key) (value : Option Value) : Prop :=
  key = .current → ∀ written, value = some written →
    ∃ head, written = .head head ∧ SoundHead w (w.store.issue .current) head

section
variable {key : Key} {value : Option Value}

theorem Inv.grows_write (h : Inv w) : Grows w (w.write key value) :=
  ⟨h.store.extends_write _, List.prefix_refl _, List.prefix_refl _, fun _ => id⟩

theorem Inv.write (h : Inv w) (may : MayWrite w key value) : Inv (w.write key value) := by
  have grown : Grows w (w.write key value) := h.grows_write
  constructor
  case store => exact h.store.write _
  case ids => exact h.ids
  case sequences => exact h.sequences
  case sized => exact h.sized
  case headVersions =>
    exact fun published member => (h.headVersions _ member).trans (grown.store.version _)
  case authored => exact h.authored
  case exclusive => exact h.exclusive
  case advanced => exact h.advanced
  case deleted =>
    exact fun published member _ _ same version inside =>
      grown.gone (h.deleted _ member _ _ same _ inside)
  case evidence =>
    intro published member data same
    obtain ⟨found, carries, confirmed⟩ := h.evidence _ member _ same
    exact ⟨found, carries, confirmed.grows grown⟩
  case heads =>
    intro version written logged
    simp only [World.write, Cas.Store.write] at logged
    split at logged
    · next same =>
        obtain ⟨current, rfl⟩ := same
        obtain ⟨head, isHead, sound⟩ := may current.symm _ logged
        subst current
        exact ⟨head, isHead, sound.grows grown⟩
    · obtain ⟨head, isHead, sound⟩ := h.heads _ _ logged
      exact ⟨head, isHead, sound.grows grown⟩
  case advances =>
    exact fun advance member => (h.advances _ member).imp (fun proper => proper.grows grown) id

theorem guaranteed_write (h : Inv w) (may : MayWrite w key value)
    : Guaranteed maxReadEvents thread w (w.write key value) :=
  ⟨h.write may, h.grows_write, fun _ _ _ member _ => member⟩

/-- The record of an advance that is proper, or whose author was hasty. -/
theorem guaranteed_advance (h : Inv w) {advance : Advance ι}
    (proper : Proper w advance ∨ advance.author ∈ w.hasty)
    : Guaranteed maxReadEvents thread w { w with advances := w.advances ++ [advance] } := by
  have grown : Grows w { w with advances := w.advances ++ [advance] } :=
    ⟨.refl _, List.prefix_refl _, List.prefix_append .., fun _ => id⟩
  refine ⟨?_, grown, fun _ _ _ member _ => member⟩
  refine { h with
    advanced := ?_, evidence := ?_, heads := ?_, advances := ?_ }
  · intro transitionId marked
    obtain ⟨found, member, same⟩ := h.advanced _ marked
    exact ⟨found, grown.advances.subset member, same⟩
  · intro published member data same
    obtain ⟨found, carries, confirmed⟩ := h.evidence _ member _ same
    exact ⟨found, carries, confirmed.grows grown⟩
  · intro version written logged
    obtain ⟨head, isHead, sound⟩ := h.heads _ _ logged
    exact ⟨head, isHead, sound.grows grown⟩
  · intro found member
    rcases List.mem_append.mp member with before | single
    · exact (h.advances _ before).imp (fun held => held.grows grown) id
    · rw [List.mem_singleton.mp single]
      exact proper.imp (fun held => held.grows grown) id

theorem guaranteed_hasty (h : Inv w)
    : Guaranteed maxReadEvents thread w { w with hasty := thread :: w.hasty } := by
  have grown : Grows w { w with hasty := thread :: w.hasty } :=
    ⟨.refl _, List.prefix_refl _, List.prefix_refl _, fun _ => List.mem_cons_of_mem _⟩
  refine ⟨?_, grown, fun _ _ _ member _ => member⟩
  refine { h with evidence := ?_, heads := ?_, advances := ?_ }
  · intro published member data same
    obtain ⟨found, carries, confirmed⟩ := h.evidence _ member _ same
    exact ⟨found, carries, confirmed.grows grown⟩
  · intro version written logged
    obtain ⟨head, isHead, sound⟩ := h.heads _ _ logged
    exact ⟨head, isHead, sound.grows grown⟩
  · exact fun advance member =>
      (h.advances _ member).imp (fun held => held.grows grown) (List.mem_cons_of_mem _)

end

end PiFabric.Timeline
