import PiFabric.Ownership.Observation

/-! What an observation holds: every record of it was read at instants of the observation, in the
order of the code, and the owners and roots of every participant were observed with it.
-/

namespace PiFabric.Ownership

open JsString

variable {options : ObservationOptions} {world : Nat → World}

structure ParticipantRead (options : ObservationOptions) (world : Nat → World) (stop : Nat)
    (id : JsString) (record : ParticipantRecord)
    : Prop where
  before : record.instant + 2 < stop
  read : record = participantRecord options record.instant
    (stampOf ((world record.instant).participantFile id))
    ((world (record.instant + 1)).readParticipant id)
    (options.readShared (world (record.instant + 2)) (participantPrefix ++ digest id))

structure HostRead (options : ObservationOptions) (world : Nat → World) (stop : Nat)
    (id : JsString) (record : HostRecord)
    : Prop where
  before : record.instant + 2 < stop
  read : record = hostRecord options id record.instant
    (stampOf ((world record.instant).leaseFile id)) ((world (record.instant + 1)).readLease id)
    (options.readShared (world (record.instant + 2)) (hostPrefix ++ digest id))

def ClosureRead (options : ObservationOptions) (world : Nat → World) (stop : Nat) (root facts : JsString)
    : Prop :=
  ∃ instant < stop, facts
    = closureFacts (options.readShared (world instant) (lineageClosurePrefix ++ digest root))

/-- Everything of an observation was read before the instant of its next read. -/
structure Read (options : ObservationOptions) (world : Nat → World) (progress : Progress) : Prop where
  stateStamp : progress.observation.stateStamp = (world 0).sharedStamp
  participants : ∀ id record, progress.observation.participants.get? id = some record →
    ParticipantRead options world progress.instant id record
  hosts : ∀ id record, progress.observation.hosts.get? id = some record →
    HostRead options world progress.instant id record
  closures : ∀ root facts, progress.observation.closures.get? root = some facts →
    ClosureRead options world progress.instant root facts

/-- What was observed stays as it was. -/
structure Keeps (before after : Progress) : Prop where
  instant : before.instant ≤ after.instant
  participants : ∀ id record, before.observation.participants.get? id = some record →
    after.observation.participants.get? id = some record
  hosts : ∀ id record, before.observation.hosts.get? id = some record →
    after.observation.hosts.get? id = some record
  closures : ∀ root facts, before.observation.closures.get? root = some facts →
    after.observation.closures.get? root = some facts

theorem Keeps.refl (progress : Progress) : Keeps progress progress :=
  ⟨Nat.le_refl _, fun _ _ held => held, fun _ _ held => held, fun _ _ held => held⟩

theorem Keeps.trans {first second third : Progress} (earlier : Keeps first second)
    (later : Keeps second third)
    : Keeps first third where
  instant := earlier.instant.trans later.instant
  participants := fun id record held => later.participants id record (earlier.participants id record held)
  hosts := fun id record held => later.hosts id record (earlier.hosts id record held)
  closures := fun root facts held => later.closures root facts (earlier.closures root facts held)

variable {κ ν : Type}

theorem get?_of_has [DecidableEq κ] {map : JsMap κ ν} {key : κ} (there : map.has key = true)
    : ∃ held, map.get? key = some held := by
  refine Option.ne_none_iff_exists'.mp fun missing => ?_
  exact JsMap.get?_eq_none_iff.mp missing (JsMap.has_iff.mp there)

theorem get?_set_of_absent [DecidableEq κ] {map : JsMap κ ν} {key other : κ} {value held : ν}
    (missing : ¬map.has key = true) (there : map.get? other = some held)
    : (map.set key value).get? other = some held := by
  rw [JsMap.get?_set]
  split
  · rename_i same
    exact absurd (JsMap.has_of_get? (same ▸ there)) missing
  · exact there

variable {progress : Progress}

theorem Read.later (read : Read options world progress) {stop : Nat}
    (after : progress.instant ≤ stop)
    : Read options world { progress with instant := stop } where
  stateStamp := read.stateStamp
  participants := fun id record held =>
    ⟨(read.participants id record held).before.trans_le after, (read.participants id record held).read⟩
  hosts := fun id record held =>
    ⟨(read.hosts id record held).before.trans_le after, (read.hosts id record held).read⟩
  closures := fun root facts held => by
    obtain ⟨instant, before, same⟩ := read.closures root facts held
    exact ⟨instant, before.trans_le after, same⟩

theorem observeHost_spec (read : Read options world progress) (id : JsString)
    : Read options world (observeHost options world progress id)
      ∧ Keeps progress (observeHost options world progress id)
      ∧ (observeHost options world progress id).observation.participants
        = progress.observation.participants
      ∧ (observeHost options world progress id).observation.hosts.has id = true := by
  rw [observeHost]
  split
  · rename_i present
    exact ⟨read, Keeps.refl progress, rfl, present⟩
  · rename_i missing
    have wider := read.later (Nat.le_add_right progress.instant 3)
    refine ⟨?_, ⟨Nat.le_add_right _ _, fun _ _ held => held, ?_, fun _ _ held => held⟩, rfl, ?_⟩
    · refine ⟨wider.stateStamp, wider.participants, fun other record held => ?_, wider.closures⟩
      dsimp only at held
      rw [JsMap.get?_set] at held
      split at held
      · rename_i same
        obtain rfl := Option.some.inj held
        subst same
        exact ⟨Nat.lt_succ_self _, rfl⟩
      · exact wider.hosts other record held
    · exact fun other record held => get?_set_of_absent missing held
    · exact JsMap.has_of_get? (JsMap.get?_set_self _ _ _)

theorem observeRoot_spec (read : Read options world progress) (root : JsString)
    : Read options world (observeRoot options world progress root)
      ∧ Keeps progress (observeRoot options world progress root)
      ∧ (observeRoot options world progress root).observation.participants
        = progress.observation.participants
      ∧ (observeRoot options world progress root).observation.closures.has root = true := by
  rw [observeRoot]
  split
  · rename_i present
    exact ⟨read, Keeps.refl progress, rfl, present⟩
  · rename_i missing
    have wider := read.later (Nat.le_add_right progress.instant 1)
    refine ⟨?_, ⟨Nat.le_add_right _ _, fun _ _ held => held, fun _ _ held => held, ?_⟩, rfl, ?_⟩
    · refine ⟨wider.stateStamp, wider.participants, wider.hosts, fun other facts held => ?_⟩
      dsimp only at held
      rw [JsMap.get?_set] at held
      split at held
      · rename_i same
        obtain rfl := Option.some.inj held
        subst same
        exact ⟨progress.instant, Nat.lt_succ_self _, rfl⟩
      · exact wider.closures other facts held
    · exact fun other facts held => get?_set_of_absent missing held
    · exact JsMap.has_of_get? (JsMap.get?_set_self _ _ _)

/-- What was observed under a key stays observed. -/
theorem has_of_keeps [DecidableEq κ] {before after : JsMap κ ν} {key : κ}
    (keeps : ∀ other held, before.get? other = some held → after.get? other = some held)
    (there : before.has key = true)
    : after.has key = true := by
  obtain ⟨held, found⟩ := get?_of_has there
  exact JsMap.has_of_get? (keeps key held found)

/-- Observing some hosts, by induction over them. -/
theorem foldl_observeHost (owners : List JsString) (read : Read options world progress)
    : Read options world (owners.foldl (observeHost options world) progress)
      ∧ Keeps progress (owners.foldl (observeHost options world) progress)
      ∧ (owners.foldl (observeHost options world) progress).observation.participants
        = progress.observation.participants
      ∧ ∀ owner ∈ owners,
        (owners.foldl (observeHost options world) progress).observation.hosts.has owner = true := by
  induction owners generalizing progress with
  | nil => exact ⟨read, Keeps.refl progress, rfl, fun _ member => nomatch member⟩
  | cons id rest ih =>
    obtain ⟨once, kept, same, here⟩ := observeHost_spec read id
    obtain ⟨all, keeps, others, each⟩ := ih once
    rw [List.foldl_cons]
    refine ⟨all, kept.trans keeps, others.trans same, fun owner member => ?_⟩
    rcases List.mem_cons.mp member with rfl | later
    · exact has_of_keeps keeps.hosts here
    · exact each owner later

/-- Observing some roots, by induction over them. -/
theorem foldl_observeRoot (roots : List JsString) (read : Read options world progress)
    : Read options world (roots.foldl (observeRoot options world) progress)
      ∧ Keeps progress (roots.foldl (observeRoot options world) progress)
      ∧ (roots.foldl (observeRoot options world) progress).observation.participants
        = progress.observation.participants
      ∧ ∀ root ∈ roots,
        (roots.foldl (observeRoot options world) progress).observation.closures.has root = true := by
  induction roots generalizing progress with
  | nil => exact ⟨read, Keeps.refl progress, rfl, fun _ member => nomatch member⟩
  | cons id rest ih =>
    obtain ⟨once, kept, same, here⟩ := observeRoot_spec read id
    obtain ⟨all, keeps, others, each⟩ := ih once
    rw [List.foldl_cons]
    refine ⟨all, kept.trans keeps, others.trans same, fun root member => ?_⟩
    rcases List.mem_cons.mp member with rfl | later
    · exact has_of_keeps keeps.closures here
    · exact each root later

def Complete (observation : Observation) : Prop :=
  ∀ id record, observation.participants.get? id = some record →
    (∀ owner ∈ record.owners, observation.hosts.has owner = true)
      ∧ ∀ root ∈ record.roots, observation.closures.has root = true

theorem observeActor_spec (read : Read options world progress)
    (complete : Complete progress.observation) (id : JsString)
    : Read options world (observeActor options world progress id)
      ∧ Complete (observeActor options world progress id).observation
      ∧ ∀ other, (observeActor options world progress id).observation.participants.has other = true
        ↔ other = id ∨ progress.observation.participants.has other = true := by
  rw [observeActor]
  split
  · rename_i present
    refine ⟨read, complete, fun other => ⟨.inr, ?_⟩⟩
    rintro (rfl | held)
    · exact present
    · exact held
  · rename_i missing
    dsimp only
    generalize made : participantRecord options progress.instant
      (stampOf ((world progress.instant).participantFile id))
      ((world (progress.instant + 1)).readParticipant id)
      (options.readShared (world (progress.instant + 2)) (participantPrefix ++ digest id)) = record
    have wider := read.later (Nat.le_add_right progress.instant 3)
    have added : Read options world {
        observation := { progress.observation with
          participants := progress.observation.participants.set id record }
        instant := progress.instant + 3 } := by
      refine ⟨wider.stateStamp, fun other held there => ?_, wider.hosts, wider.closures⟩
      dsimp only at there
      rw [JsMap.get?_set] at there
      split at there
      · rename_i same
        obtain rfl := Option.some.inj there
        subst same
        rw [← made]
        exact ⟨Nat.lt_succ_self _, rfl⟩
      · exact wider.participants other held there
    obtain ⟨hostsRead, hostsKept, hostsSame, owners⟩ := foldl_observeHost record.owners added
    obtain ⟨rootsRead, rootsKept, rootsSame, roots⟩ := foldl_observeRoot record.roots hostsRead
    have participants := rootsSame.trans hostsSame
    refine ⟨rootsRead, fun other held there => ?_, fun other => ?_⟩
    · rw [participants] at there
      dsimp only at there
      rw [JsMap.get?_set] at there
      split at there
      · obtain rfl := Option.some.inj there
        exact ⟨fun owner member => has_of_keeps rootsKept.hosts (owners owner member), roots⟩
      · obtain ⟨oldOwners, oldRoots⟩ := complete other held there
        have kept := hostsKept.trans rootsKept
        exact ⟨fun owner member => has_of_keeps kept.hosts (oldOwners owner member),
          fun root member => has_of_keeps kept.closures (oldRoots root member)⟩
    · rw [participants]
      constructor
      · intro held
        obtain ⟨found, there⟩ := get?_of_has held
        dsimp only at there
        rw [JsMap.get?_set] at there
        split at there
        · rename_i same
          exact .inl same
        · exact .inr (JsMap.has_of_get? there)
      · rintro (rfl | held)
        · exact JsMap.has_of_get? (JsMap.get?_set_self _ _ _)
        · obtain ⟨found, there⟩ := get?_of_has held
          exact JsMap.has_of_get? (get?_set_of_absent missing there)

/-- An observation holds exactly the actors that it was asked for, each with its owners and roots,
by induction over the actors.
-/
theorem observeActorOwnership_spec (options : ObservationOptions) (world : Nat → World)
    (actorIds : List JsString)
    : Read options world (observeActorOwnership options world actorIds)
      ∧ Complete (observeActorOwnership options world actorIds).observation
      ∧ ∀ id, (observeActorOwnership options world actorIds).observation.participants.has id = true
        ↔ id ∈ actorIds := by
  have each (actorIds : List JsString) {progress : Progress} (read : Read options world progress)
      (complete : Complete progress.observation)
      : Read options world (actorIds.foldl (observeActor options world) progress)
        ∧ Complete (actorIds.foldl (observeActor options world) progress).observation
        ∧ ∀ id,
          (actorIds.foldl (observeActor options world) progress).observation.participants.has id = true
          ↔ id ∈ actorIds ∨ progress.observation.participants.has id = true := by
    induction actorIds generalizing progress with
    | nil => exact ⟨read, complete, fun id => ⟨.inr, fun held => held.resolve_left (nomatch ·)⟩⟩
    | cons id rest ih =>
      obtain ⟨once, whole, known⟩ := observeActor_spec read complete id
      obtain ⟨all, wholes, others⟩ := ih once whole
      refine ⟨all, wholes, fun other => ?_⟩
      rw [List.foldl_cons, others other, known other, List.mem_cons]
      tauto
  have start : Read options world {
      observation := {
        stateStamp := (world 0).sharedStamp, participants := .empty, hosts := .empty
        closures := .empty }
      instant := 1 } :=
    ⟨rfl, fun _ _ held => (nomatch held), fun _ _ held => (nomatch held),
      fun _ _ held => (nomatch held)⟩
  obtain ⟨read, complete, known⟩ := each actorIds start fun _ _ held => (nomatch held)
  refine ⟨read, complete, fun id => (known id).trans ?_⟩
  exact ⟨fun held => held.resolve_right (nomatch ·), .inl⟩

end PiFabric.Ownership
