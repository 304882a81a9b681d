import PiFabric.Foundation.Literals
import PiFabric.Ownership.Validation

/-! A validated observation is still true exactly where no file flickered, in both modes and for
every schedule of writes between the reads.
-/

namespace PiFabric.Ownership

open JsString

variable {options : ObservationOptions} {world : Nat → World} {last : Nat} {now : Time}
  {later : JsString → Time}

theorem lt_of_earliest {deadlines : List (Option Time)}
    (after : ((earliest deadlines).any fun deadline => decide (deadline ≤ now)) = false)
    {time : Time} (member : some time ∈ deadlines)
    : now < time := by
  have listed : time ∈ deadlines.filterMap id := List.mem_filterMap.mpr ⟨some time, member, rfl⟩
  cases found : (deadlines.filterMap id).min? with
  | none =>
    rw [List.min?_eq_none_iff.mp found] at listed
    cases listed
  | some first =>
    rw [earliest, found, Option.any_some, decide_eq_false_iff_not] at after
    have least := (List.min?_eq_some_iff.mp found).2 time listed
    exact (lt_of_not_ge after).trans_le least

variable {observation : Observation} {scope : List JsString} {id : JsString}
  {record : ParticipantRecord}

theorem mem_records
    : (id, record) ∈ observation.records scope
      ↔ id ∈ scope ∧ observation.participants.get? id = some record := by
  rw [Observation.records, List.mem_filterMap]
  constructor
  · intro held
    obtain ⟨other, member, made⟩ := held
    obtain ⟨found, there, same⟩ := Option.map_eq_some_iff.mp made
    obtain ⟨rfl, rfl⟩ := Prod.mk.inj same
    exact ⟨member, there⟩
  · intro held
    exact ⟨id, held.1, by rw [held.2]; rfl⟩

def scopeOwners (observation : Observation) (scope : List JsString) : List JsString :=
  ((observation.records scope).flatMap (·.2.owners)).eraseDups

def scopeRoots (observation : Observation) (scope : List JsString) : List JsString :=
  ((observation.records scope).flatMap (·.2.roots)).eraseDups

variable {owner : JsString}

theorem mem_scopeOwners (member : id ∈ scope)
    (there : observation.participants.get? id = some record) (owned : owner ∈ record.owners)
    : owner ∈ scopeOwners observation scope :=
  List.mem_eraseDups.mpr (List.mem_flatMap.mpr ⟨(id, record), mem_records.mpr ⟨member, there⟩, owned⟩)

theorem mem_scopeRoots {root : JsString} (member : id ∈ scope)
    (there : observation.participants.get? id = some record) (rooted : root ∈ record.roots)
    : root ∈ scopeRoots observation scope :=
  List.mem_eraseDups.mpr (List.mem_flatMap.mpr ⟨(id, record), mem_records.mpr ⟨member, there⟩, rooted⟩)

structure Checked (options : ObservationOptions) (observation : Observation) (world : World)
    (now : Time) (later : JsString → Time) (scope : List JsString)
    : Prop where
  known : ∀ id ∈ scope, ∃ record, observation.participants.get? id = some record
  deadlines : ((observation.scopedDeadline ((observation.records scope).map (·.2))).any
    fun deadline => decide (deadline ≤ now)) = false
  participants : ∀ id ∈ scope, ∀ record, observation.participants.get? id = some record →
    Observation.participantKept options world id record = true
  leases : ∀ owner ∈ scopeOwners observation scope,
    observation.checkHost owner (Observation.leaseKept world owner) = true
  mode : if options.strict.isSome then
      observation.strictKept options world later (observation.records scope)
        (scopeOwners observation scope) (scopeRoots observation scope) = true
    else observation.plainKept options world (observation.records scope)
      (scopeOwners observation scope) (scopeRoots observation scope) = true

theorem checked_of_unchanged {world : World}
    (validated : observation.unchanged options world now later scope = true)
    : Checked options observation world now later scope := by
  rw [Observation.unchanged] at validated
  split at validated
  · cases validated
  · rename_i unknown
    dsimp only at validated
    split at validated
    · cases validated
    · rename_i early
      split at validated
      · cases validated
      · split at validated
        · cases validated
        · rename_i participants
          split at validated
          · cases validated
          · rename_i leases
            rw [Bool.not_eq_true, Bool.not_eq_false'] at participants leases
            refine ⟨fun id member => ?_, Bool.eq_false_of_not_eq_true early, ?_, ?_, ?_⟩
            · refine Option.ne_none_iff_exists'.mp fun missing => ?_
              exact unknown (List.any_eq_true.mpr ⟨id, member, by rw [missing]; rfl⟩)
            · exact fun id member record there =>
                List.all_eq_true.mp participants (id, record) (mem_records.mpr ⟨member, there⟩)
            · exact List.all_eq_true.mp leases
            · split at validated
              · rename_i strict
                rw [if_pos strict]
                exact validated
              · rename_i plain
                rw [if_neg plain]
                exact validated

variable {instant : Nat}

/-- The shared state at every instant up to the check, where its stamp did not move. -/
theorem shared_eq_of_stamp (tells : StampsTell world)
    (same : (world last).sharedStamp = (world 0).sharedStamp) (before : instant ≤ last)
    : (world instant).shared = (world last).shared :=
  (tells.shared 0 instant last (Nat.zero_le _) before same.symm).trans
    (tells.shared 0 last last (Nat.zero_le _) (Nat.le_refl _) same.symm).symm

theorem sameShared_of_stamp (tells : StampsTell world)
    (same : (world last).sharedStamp = (world 0).sharedStamp) (before : instant ≤ last)
    (facts : Option StateEntry → JsString) (valid : Option (StateEntry → Option Bool))
    (key : JsString)
    : SameShared world last facts valid key instant := by
  have still := shared_eq_of_stamp tells same before
  exact ⟨by rw [still], by rw [still]⟩

/-- What the check of either mode says where the shared state moved, and of the owners where
anything did.
-/
structure ModeKept (options : ObservationOptions) (observation : Observation) (world : World)
    (later : JsString → Time) (scope : List JsString)
    : Prop where
  participants : world.sharedStamp ≠ observation.stateStamp → ∀ id ∈ scope, ∀ record,
    observation.participants.get? id = some record →
      Observation.participantShared options world id record = true
  hosts : world.sharedStamp ≠ observation.stateStamp → ∀ owner ∈ scopeOwners observation scope,
    observation.checkHost owner (Observation.hostShared options world owner) = true
  closures : world.sharedStamp ≠ observation.stateStamp → ∀ root ∈ scopeRoots observation scope,
    observation.closureKept world root = true
  deadlines : options.strict.isSome = true → ∀ owner ∈ scopeOwners observation scope,
    (world.sharedStamp ≠ observation.stateStamp
      ∨ observation.checkHost owner (Observation.leaseMoved world owner) = true) →
    observation.checkHost owner (fun host => Observation.deadlineKept (later owner) host.deadline
      (hostDeadline owner (world.shared (hostPrefix ++ digest owner)) (world.readLease owner))) = true

/-- What is shared, where the check of it succeeds. -/
theorem sharedKept_spec {roots : List JsString} {world : World}
    (kept : observation.sharedKept options world (observation.records scope) roots = true)
    : (∀ id ∈ scope, ∀ record, observation.participants.get? id = some record →
        Observation.participantShared options world id record = true)
      ∧ ∀ root ∈ roots, observation.closureKept world root = true := by
  obtain ⟨participants, closures⟩ := Bool.and_eq_true_iff.mp kept
  exact ⟨fun id member record there =>
    List.all_eq_true.mp participants (id, record) (mem_records.mpr ⟨member, there⟩),
    List.all_eq_true.mp closures⟩

theorem checkHost_and {first second : HostRecord → Bool}
    (both : observation.checkHost id (fun host => first host && second host) = true)
    : observation.checkHost id first = true ∧ observation.checkHost id second = true := by
  rw [Observation.checkHost, Option.any_eq_true] at both
  obtain ⟨host, there, held⟩ := both
  obtain ⟨left, right⟩ := Bool.and_eq_true_iff.mp held
  exact ⟨(Option.any_eq_true _ _).mpr ⟨host, there, left⟩,
    (Option.any_eq_true _ _).mpr ⟨host, there, right⟩⟩

theorem modeKept_of_strictKept {world : World} (opened : options.openState = true)
    (kept : observation.strictKept options world later (observation.records scope)
      (scopeOwners observation scope) (scopeRoots observation scope) = true)
    : ModeKept options observation world later scope := by
  rw [Observation.strictKept] at kept
  dsimp only at kept
  rw [opened, Bool.not_true, Bool.and_false, if_neg Bool.false_ne_true] at kept
  split at kept
  · rename_i still
    obtain ⟨unmoved, leases⟩ := Bool.and_eq_true_iff.mp still
    rw [Bool.not_eq_true', decide_eq_false_iff_not, not_not] at unmoved
    rw [Bool.not_eq_true'] at leases
    refine ⟨fun moved => absurd unmoved moved, fun moved => absurd unmoved moved,
      fun moved => absurd unmoved moved, fun _ owner member moved => ?_⟩
    rcases moved with moved | moved
    · exact absurd unmoved moved
    · exact absurd moved (by rw [List.any_eq_false] at leases; exact leases owner member)
  · obtain ⟨hosts, rest⟩ := Bool.and_eq_true_iff.mp kept
    have each (owner : JsString) (member : owner ∈ scopeOwners observation scope)
        (moved : world.sharedStamp ≠ observation.stateStamp
          ∨ observation.checkHost owner (Observation.leaseMoved world owner) = true)
        := checkHost_and (List.all_eq_true.mp hosts owner (List.mem_filter.mpr ⟨member, by
          rcases moved with moved | moved
          · rw [decide_eq_true moved, Bool.true_or]
          · rw [moved, Bool.or_true]⟩))
    have shared (moved : world.sharedStamp ≠ observation.stateStamp) := by
      rw [decide_eq_true moved, Bool.not_true, Bool.false_or] at rest
      exact sharedKept_spec rest
    exact ⟨fun moved => (shared moved).1, fun moved owner member => (each owner member (.inl moved)).1,
      fun moved => (shared moved).2, fun _ owner member moved => (each owner member moved).2⟩

theorem modeKept_of_plainKept {world : World} (opened : options.openState = true)
    (plain : ¬options.strict.isSome = true)
    (kept : observation.plainKept options world (observation.records scope)
      (scopeOwners observation scope) (scopeRoots observation scope) = true)
    : ModeKept options observation world later scope := by
  have moved_ (moved : world.sharedStamp ≠ observation.stateStamp) := by
    rw [Observation.plainKept, opened, decide_eq_false moved, Bool.not_true, Bool.or_self,
      Bool.false_or] at kept
    obtain ⟨shared, hosts⟩ := Bool.and_eq_true_iff.mp kept
    exact And.intro (sharedKept_spec shared) (List.all_eq_true.mp hosts)
  exact ⟨fun moved => (moved_ moved).1.1, fun moved => (moved_ moved).2,
    fun moved => (moved_ moved).1.2, fun strict => absurd strict plain⟩

structure Before (options : ObservationOptions) (world : Nat → World) (last : Nat) (progress : Progress)
    : Prop where
  read : Read options world progress
  complete : Complete progress.observation
  ended : progress.instant ≤ last
  opened : options.openState = true
  tells : StampsTell world

variable {progress : Progress}

theorem Before.sameShared (before : Before options world last progress) (early : instant ≤ last)
    {facts : Option StateEntry → JsString} (missing : facts none = absent)
    (there : ∀ entry, ∃ items, facts (some entry) = Json.stringify (.array items))
    {valid : Option (StateEntry → Option Bool)} {key : JsString}
    (kept : (world last).sharedStamp ≠ progress.observation.stateStamp →
      facts ((world last).shared key) ++ validity ((world last).shared key) valid
        = facts ((world instant).shared key) ++ validity ((world instant).shared key) valid)
    : SameShared world last facts valid key instant := by
  by_cases unmoved : (world last).sharedStamp = progress.observation.stateStamp
  · exact sameShared_of_stamp before.tells (unmoved.trans before.read.stateStamp) early facts valid key
  · obtain ⟨same, validities⟩ := facts_of_append_validity missing there (kept unmoved)
    exact ⟨same.symm, validities.symm⟩

theorem Before.readShared_eq (before : Before options world last progress) (place : World)
    (key : JsString)
    : options.readShared place key = place.shared key := by
  rw [ObservationOptions.readShared, before.opened, if_pos rfl]

theorem Before.sameParticipant (before : Before options world last progress)
    (checked : Checked options progress.observation (world last) now later scope)
    (mode : ModeKept options progress.observation (world last) later scope) (member : id ∈ scope)
    (there : progress.observation.participants.get? id = some record)
    (steady : ¬Flickers (participantAt world id) (parseParticipant id) record.instant last)
    : SameParticipant options world last now id record := by
  obtain ⟨early, read⟩ := before.read.participants id record there
  have stop := before.ended
  have facts : options.pFacts ((world (record.instant + 1)).readParticipant id)
      = options.pFacts ((world last).readParticipant id) := by
    rcases Bool.or_eq_true_iff.mp (checked.participants id member record there) with stamp | facts
    · have unmoved := of_decide_eq_true stamp
      rw [read] at unmoved
      have same := @read_eq_of_stamp _ (participantAt world id) (parseParticipant id) record.instant last
        (before.tells.participants (digest id)) (by omega) steady unmoved
      exact congrArg options.pFacts same
    · have same := of_decide_eq_true facts
      rw [read] at same
      exact same.symm
  obtain ⟨file, validities⟩ := facts_of_append_validity rfl participantFacts_some facts
  have shared : SameShared world last participantFacts (options.strict.map (·.participant))
      (participantPrefix ++ digest id) (record.instant + 2) := by
    refine before.sameShared (by omega) rfl participantFacts_some fun moved => ?_
    have same := of_decide_eq_true (mode.participants moved id member record there)
    rw [read] at same
    dsimp only [participantRecord] at same
    rw [before.readShared_eq] at same
    exact same
  have names : ownerOf ((world (record.instant + 1)).readParticipant id)
      = ownerOf ((world last).readParticipant id) := ownerOf_of_participantFacts file
  have sharedNames := ownerOf_of_participantFacts shared.facts
  refine ⟨file, validities, shared, ?_, ?_, fun time held => ?_⟩
  · conv_lhs => rw [read]
    dsimp only [participantRecord]
    rw [before.readShared_eq, names, sharedNames]
  · conv_lhs => rw [read]
    dsimp only [participantRecord]
    rw [before.readShared_eq, names, sharedNames]
  · refine lt_of_earliest checked.deadlines (List.mem_append_left _ ?_)
    rw [List.map_map]
    exact List.mem_map.mpr ⟨(id, record), mem_records.mpr ⟨member, there⟩, held⟩

variable {host : HostRecord}

theorem of_checkHost {check : HostRecord → Bool} (there : observation.hosts.get? id = some host)
    (held : observation.checkHost id check = true)
    : check host = true := by
  rw [Observation.checkHost, there, Option.any_some] at held
  exact held

theorem live_of_strict (strict : options.strict.isSome = true) (deadline : Option Time)
    : options.live deadline = deadline := by
  cases deadline with
  | none => rfl
  | some time =>
    rw [ObservationOptions.live, strict, Option.filter_some]
    rfl

theorem Before.sameHost (before : Before options world last progress)
    (checked : Checked options progress.observation (world last) now later scope)
    (mode : ModeKept options progress.observation (world last) later scope) (member : id ∈ scope)
    (there : progress.observation.participants.get? id = some record)
    (owned : owner ∈ record.owners) (held : progress.observation.hosts.get? owner = some host)
    (steady : ¬Flickers (leaseAt world owner) (parseLease owner) host.instant last)
    : SameHost options world last now owner host := by
  obtain ⟨early, read⟩ := before.read.hosts owner host held
  have stop := before.ended
  have listed := mem_scopeOwners member there owned
  have stamped : host.stamp = stampOf ((world host.instant).leaseFile owner) := by
    conv_lhs => rw [read]
    rfl
  have factsRead : host.facts = leaseFacts ((world (host.instant + 1)).readLease owner) := by
    conv_lhs => rw [read]
    rfl
  have sharedRead : host.shared = options.hFacts
      ((world (host.instant + 2)).shared (hostPrefix ++ digest owner)) := by
    conv_lhs => rw [read]
    dsimp only [hostRecord]
    rw [before.readShared_eq]
  have deadlineRead : host.deadline
      = options.live (ownerDeadline world owner (host.instant + 1) (host.instant + 2)) := by
    conv_lhs => rw [read]
    dsimp only [hostRecord]
    rw [before.readShared_eq]
    rfl
  have still (unmoved : ¬Observation.leaseMoved (world last) owner host = true)
      : (world (host.instant + 1)).readLease owner = (world last).readLease owner := by
    rw [Observation.leaseMoved, decide_eq_true_eq, not_not, stamped] at unmoved
    exact @read_eq_of_stamp _ (leaseAt world owner) (parseLease owner) host.instant last
      (before.tells.leases (fileName owner)) (by omega) steady unmoved
  have kept := of_checkHost held (checked.leases owner listed)
  refine ⟨?_, ?_, fun time there_ => ?_, fun strict => ?_⟩
  · by_cases moved : Observation.leaseMoved (world last) owner host = true
    · rw [Observation.leaseKept, moved, Bool.not_true, Bool.false_or] at kept
      exact (of_decide_eq_true kept |>.trans factsRead).symm
    · rw [still moved]
  · refine before.sameShared (by omega) rfl hostFacts_some fun moved => ?_
    have same := of_decide_eq_true (of_checkHost held (mode.hosts moved owner listed))
    rw [sharedRead] at same
    exact same
  · refine lt_of_earliest checked.deadlines (List.mem_append_right _ (List.mem_map.mpr ⟨owner, ?_, ?_⟩))
    · refine List.mem_flatMap.mpr ⟨record, ?_, owned⟩
      exact List.mem_map.mpr ⟨(id, record), mem_records.mpr ⟨member, there⟩, rfl⟩
    · rw [held]
      exact there_
  · by_cases moved : (world last).sharedStamp ≠ progress.observation.stateStamp
      ∨ Observation.leaseMoved (world last) owner host = true
    · have checkedDeadline := of_checkHost held (mode.deadlines strict owner listed (by
        rcases moved with moved | moved
        · exact .inl moved
        · right
          rw [Observation.checkHost, held]
          exact moved))
      rw [deadlineRead, live_of_strict strict] at checkedDeadline
      right
      cases fresh : hostDeadline owner ((world last).shared (hostPrefix ++ digest owner))
          ((world last).readLease owner) with
      | none =>
        rw [fresh] at checkedDeadline
        cases checkedDeadline
      | some deadline =>
        rw [fresh] at checkedDeadline
        obtain ⟨_, bounded⟩ := Bool.and_eq_true_iff.mp checkedDeadline
        obtain ⟨first, observed, order⟩ := (Option.any_eq_true _ _).mp bounded
        exact ⟨first, deadline, observed, fresh, of_decide_eq_true order⟩
    · obtain ⟨unmoved, lease⟩ := not_or.mp moved
      have shared := shared_eq_of_stamp before.tells
        ((not_not.mp unmoved).trans before.read.stateStamp)
        (show host.instant + 2 ≤ last by omega)
      left
      rw [ownerDeadline, ownerDeadline, still lease, shared]

theorem Before.sameClosure (before : Before options world last progress)
    (mode : ModeKept options progress.observation (world last) later scope) {root : JsString}
    (member : id ∈ scope) (there : progress.observation.participants.get? id = some record)
    (rooted : root ∈ record.roots)
    : progress.observation.closures.get? root
      = some (closureFacts ((world last).shared (lineageClosurePrefix ++ digest root))) := by
  by_cases unmoved : (world last).sharedStamp = progress.observation.stateStamp
  · obtain ⟨facts, found⟩ := get?_of_has ((before.complete id record there).2 root rooted)
    obtain ⟨instant, early, same⟩ := before.read.closures root facts found
    have still := shared_eq_of_stamp before.tells (unmoved.trans before.read.stateStamp)
      (early.le.trans before.ended)
    rw [found, same, before.readShared_eq, still]
  · exact of_decide_eq_true (mode.closures unmoved root (mem_scopeRoots member there rooted))

theorem not_flickers_of_sameParticipant (same : SameParticipant options world last now id record)
    : ¬Flickers (participantAt world id) (parseParticipant id) record.instant last := by
  rintro ⟨_, there, gone⟩
  have file := same.file
  obtain ⟨entry, read⟩ := Option.isSome_iff_exists.mp there
  have now_ : (world last).readParticipant id = none := by
    change (participantAt world id last).bind (parseParticipant id) = none
    rw [gone]
    rfl
  have then_ : (world (record.instant + 1)).readParticipant id = some entry := read
  obtain ⟨items, text⟩ := participantFacts_some entry
  rw [then_, now_, text] at file
  refine @array_append_ne_absent items [] ?_
  rw [List.append_nil]
  exact file

theorem not_flickers_of_sameHost (same : SameHost options world last now owner host)
    : ¬Flickers (leaseAt world owner) (parseLease owner) host.instant last := by
  rintro ⟨_, there, gone⟩
  have file := same.lease
  obtain ⟨lease, read⟩ := Option.isSome_iff_exists.mp there
  have now_ : (world last).readLease owner = none := by
    change (leaseAt world owner last).bind (parseLease owner) = none
    rw [gone]
    rfl
  have then_ : (world (host.instant + 1)).readLease owner = some lease := read
  obtain ⟨items, text⟩ := leaseFacts_some lease
  rw [then_, now_, text] at file
  refine @array_append_ne_absent items [] ?_
  rw [List.append_nil]
  exact file

/-- For every schedule of writes between the reads of an observation and its check, an observation
that the check validates is still true exactly where no file flickered.
-/
theorem unchanged_stillTrue_iff_steady (options : ObservationOptions) (world : Nat → World)
    (opened : options.openState = true) (tells : StampsTell world) (actorIds scope : List JsString)
    (last : Nat) (ended : (observeActorOwnership options world actorIds).instant ≤ last) (now : Time)
    (later : JsString → Time)
    (validated : (observeActorOwnership options world actorIds).observation.unchanged options
      (world last) now later scope = true)
    : (∀ id ∈ scope, id ∈ actorIds)
      ∧ (StillTrue options world last now (observeActorOwnership options world actorIds).observation
          actorIds scope
        ↔ Steady world last (observeActorOwnership options world actorIds).observation scope) := by
  obtain ⟨read, complete, known⟩ := observeActorOwnership_spec options world actorIds
  have before : Before options world last (observeActorOwnership options world actorIds) :=
    ⟨read, complete, ended, opened, tells⟩
  have checked := checked_of_unchanged validated
  have mode : ModeKept options (observeActorOwnership options world actorIds).observation (world last)
      later scope := by
    have kept := checked.mode
    split at kept
    · exact modeKept_of_strictKept opened kept
    · rename_i plain
      exact modeKept_of_plainKept opened plain kept
  refine ⟨fun id member => ?_, ?_, ?_⟩
  · obtain ⟨record, there⟩ := checked.known id member
    exact (known id).mp (JsMap.has_of_get? there)
  · intro true_ id member record there
    obtain ⟨_, other, found, participant, hosts, _⟩ := true_ id member
    obtain rfl := Option.some.inj (found.symm.trans there)
    refine ⟨not_flickers_of_sameParticipant participant, fun owner owned host held => ?_⟩
    obtain ⟨kept, listed, same⟩ := hosts owner owned
    obtain rfl := Option.some.inj (listed.symm.trans held)
    exact not_flickers_of_sameHost same
  · intro steady id member
    obtain ⟨record, there⟩ := checked.known id member
    obtain ⟨participant, hosts⟩ := steady id member record there
    refine ⟨(known id).mp (JsMap.has_of_get? there), record, there,
      before.sameParticipant checked mode member there participant, fun owner owned => ?_,
      fun root rooted => before.sameClosure mode member there rooted⟩
    obtain ⟨host, held⟩ := get?_of_has ((complete id record there).1 owner owned)
    exact ⟨host, held, before.sameHost checked mode member there owned held (hosts owner owned host held)⟩

def plainOptions : ObservationOptions where
  openState := true
  strict := none
  observedAt := 0

def actorFile : FileVersion where
  stat := lit "1:2:3:4:5"
  text := Json.stringify (Json.literal [
    ("format", some (.number (.int 1))),
    ("key", some (.string (participantPrefix ++ digest (lit "a")))),
    ("value", some (Json.literal [("id", some (.string (lit "a")))])),
    ("version", some (.number (.int 1))), ("updatedAt", some (.number (.int 0))),
    ("updatedBy", some (Json.literal [("id", some (.string (lit "h")))]))])

def worldWith (file : Option FileVersion) : World where
  participants := fun _ => file
  leases := fun _ => none
  shared := fun _ => none
  sharedStamp := lit "revision:1"

/-- The file is written once, before the read after its stamp, and removed after that read. -/
def flickering (instant : Nat) : World :=
  worldWith (if instant = 2 then some actorFile else none)

theorem stampsTell_worldWith {file : Nat → Option FileVersion} (tells : Unrepeated file)
    : StampsTell fun instant => worldWith (file instant) where
  participants := fun _ => tells
  leases := by
    intro _ i j k first last _ _ there
    cases there
  shared := fun _ _ _ _ _ _ => rfl

/-- A participant that was read and is removed since is validated. -/
theorem unchanged_of_removed_participant
    : StampsTell flickering
      ∧ (observeActorOwnership plainOptions flickering [lit "a"]).instant ≤ 4
      ∧ (observeActorOwnership plainOptions flickering [lit "a"]).observation.unchanged plainOptions
          (flickering 4) 0 (fun _ => 0) [lit "a"] = true
      ∧ ¬StillTrue plainOptions flickering 4 0
          (observeActorOwnership plainOptions flickering [lit "a"]).observation [lit "a"]
          [lit "a"] := by
  refine ⟨stampsTell_worldWith ?_, by decide +kernel, by decide +kernel, fun true_ => ?_⟩
  · intro i j k first last before after there still _
    have only (instant : Nat) {version : FileVersion}
        (held : (if instant = 2 then some actorFile else none) = some version)
        : instant = 2 := by
      by_contra other
      rw [if_neg other] at held
      cases held
    obtain rfl := only i there
    obtain rfl := only k still
    obtain rfl := Nat.le_antisymm after before
    exact there
  · obtain ⟨_, record, there, participant, _⟩ := true_ (lit "a") List.mem_cons_self
    have place : ((observeActorOwnership plainOptions flickering [lit "a"]).observation.participants.get?
        (lit "a")).map (·.instant) = some 1 := by decide +kernel
    rw [there, Option.map_some, Option.some.injEq] at place
    refine not_flickers_of_sameParticipant participant ?_
    rw [place]
    exact ⟨rfl, by decide +kernel, rfl⟩

theorem unchanged_stillTrue_of_kept_participant
    : (∀ id ∈ [lit "a"], id ∈ [lit "a"])
      ∧ (StillTrue plainOptions (fun _ => worldWith (some actorFile)) 4 0
          (observeActorOwnership plainOptions (fun _ => worldWith (some actorFile))
            [lit "a"]).observation [lit "a"] [lit "a"]
        ↔ Steady (fun _ => worldWith (some actorFile)) 4
          (observeActorOwnership plainOptions (fun _ => worldWith (some actorFile))
            [lit "a"]).observation [lit "a"]) :=
  unchanged_stillTrue_iff_steady plainOptions (fun _ => worldWith (some actorFile)) rfl
    (stampsTell_worldWith fun _ _ _ _ _ _ _ there _ _ => there) [lit "a"] [lit "a"] 4
    (by decide +kernel) 0 (fun _ => 0) (by decide +kernel)

end PiFabric.Ownership
