import PiFabric.Ownership.Readings

/-! When a validated observation is still true. Stamps tell of a file for as long as it is there; a
file that appeared between its stamp and its read and is gone again is not seen to have changed.
-/

namespace PiFabric.Ownership

open JsString

variable {options : ObservationOptions} {world : Nat → World}

theorem stringify_inj {left right : Json} (same : Json.stringify left = Json.stringify right)
    : left = right := by
  have parsed := congrArg Json.parse same
  rw [Json.parse_stringify, Json.parse_stringify] at parsed
  exact Option.some.inj parsed

/-- The text of an array is not the facts of a record that is absent. -/
theorem head?_stringify_array (items : List Json)
    : (Json.stringify (.array items)).head? = some (unitOf '[') := by
  cases items with
  | nil => rfl
  | cons item rest => rfl

theorem participantFacts_some (entry : StateEntry)
    : ∃ items, participantFacts (some entry) = Json.stringify (.array items) := by
  rw [participantFacts]
  split
  · exact ⟨_, rfl⟩
  · exact ⟨_, rfl⟩

theorem leaseFacts_some (lease : HostLease)
    : ∃ items, leaseFacts (some lease) = Json.stringify (.array items) :=
  ⟨_, rfl⟩

/-- Facts that begin like an array are not those of an absent record. -/
theorem array_append_ne_absent {items : List Json} {suffix : JsString}
    : Json.stringify (.array items) ++ suffix ≠ absent := by
  intro same
  have heads := congrArg List.head? same
  rw [List.head?_append, head?_stringify_array, Option.some_or] at heads
  revert heads
  decide

/-- The validity of a record that is there is one of three texts in strict mode, and nothing
without.
-/
theorem validity_some {valid : Option (StateEntry → Option Bool)} (entry : StateEntry)
    : (valid = none ∧ validity (some entry) valid = [])
      ∨ (valid.isSome = true
        ∧ validity (some entry) valid ∈ [lit "|valid", lit "|invalid", lit "|unknown"]) := by
  cases valid with
  | none => exact .inl ⟨rfl, rfl⟩
  | some valid =>
    right
    refine ⟨rfl, ?_⟩
    rw [validity]
    split
    · exact List.mem_cons_self
    · exact List.mem_cons_of_mem _ List.mem_cons_self
    · exact List.mem_cons_of_mem _ (List.mem_cons_of_mem _ List.mem_cons_self)

/-- The three validities differ in their last six characters. -/
theorem append_validity_inj {left right first second : JsString}
    (firstKnown : first ∈ [lit "|valid", lit "|invalid", lit "|unknown"])
    (secondKnown : second ∈ [lit "|valid", lit "|invalid", lit "|unknown"])
    (same : left ++ first = right ++ second)
    : left = right ∧ first = second := by
  have long : ∀ text ∈ [lit "|valid", lit "|invalid", lit "|unknown"], 6 ≤ text.length := by decide
  have apart : ∀ text ∈ [lit "|valid", lit "|invalid", lit "|unknown"],
      ∀ other ∈ [lit "|valid", lit "|invalid", lit "|unknown"],
        text.reverse.take 6 = other.reverse.take 6 → text = other := by decide
  have ends := congrArg (fun text : JsString => text.reverse.take 6) same
  simp only [List.reverse_append] at ends
  rw [List.take_append_of_le_length (by rw [List.length_reverse]; exact long first firstKnown),
    List.take_append_of_le_length (by rw [List.length_reverse]; exact long second secondKnown)] at ends
  obtain rfl := apart first firstKnown second secondKnown ends
  exact ⟨List.append_cancel_right same, rfl⟩

/-- Facts that are the text of an array, with the validity of their record, tell both. -/
theorem facts_of_append_validity {facts : Option StateEntry → JsString}
    (missing : facts none = absent)
    (there : ∀ entry, ∃ items, facts (some entry) = Json.stringify (.array items))
    {valid : Option (StateEntry → Option Bool)} {first second : Option StateEntry}
    (same : facts first ++ validity first valid = facts second ++ validity second valid)
    : facts first = facts second ∧ validity first valid = validity second valid := by
  have nothing : validity none valid = [] := by cases valid <;> rfl
  cases first with
  | none =>
    cases second with
    | none => exact ⟨rfl, rfl⟩
    | some entry =>
      obtain ⟨items, text⟩ := there entry
      rw [nothing, List.append_nil, missing, text] at same
      exact absurd same.symm array_append_ne_absent
  | some entry =>
    cases second with
    | none =>
      obtain ⟨items, text⟩ := there entry
      rw [nothing, List.append_nil, missing, text] at same
      exact absurd same array_append_ne_absent
    | some other =>
      rcases @validity_some valid entry with ⟨rfl, empty⟩ | ⟨given, known⟩
      · rw [empty, List.append_nil] at same
        rcases @validity_some none other with ⟨_, none_⟩ | ⟨strict, _⟩
        · rw [none_, List.append_nil] at same
          exact ⟨same, empty.trans none_.symm⟩
        · cases strict
      · rcases @validity_some valid other with ⟨rfl, _⟩ | ⟨_, others⟩
        · cases given
        · exact append_validity_inj known others same

theorem hostFacts_some (entry : StateEntry)
    : ∃ items, hostFacts (some entry) = Json.stringify (.array items) := by
  rw [hostFacts]
  split
  · exact ⟨_, rfl⟩
  · exact ⟨_, rfl⟩

theorem text?_orNull (property : Option Json)
    : Json.text? (some (orNull property)) = Json.text? property := by
  cases property with
  | none => rfl
  | some value => rfl

theorem ownerOf_of_participantFacts {first second : Option StateEntry}
    (same : participantFacts first = participantFacts second)
    : ownerOf first = ownerOf second := by
  have absent_ne (entry : StateEntry) : participantFacts (some entry) ≠ absent := by
    obtain ⟨items, text⟩ := participantFacts_some entry
    have apart := @array_append_ne_absent items []
    rw [List.append_nil, ← text] at apart
    exact apart
  cases first with
  | none =>
    cases second with
    | none => rfl
    | some entry => exact absurd same.symm (absent_ne entry)
  | some entry =>
    cases second with
    | none => exact absurd same (absent_ne entry)
    | some other =>
      rw [participantFacts, participantFacts] at same
      rw [ownerOf, ownerOf, Option.bind_some, Option.bind_some]
      cases firstValue : record? entry.value with
      | none =>
        cases secondValue : record? other.value with
        | none => rfl
        | some value =>
          rw [firstValue, secondValue] at same
          have items := congrArg List.length (Json.array.inj (stringify_inj same))
          cases items
      | some value =>
        cases secondValue : record? other.value with
        | none =>
          rw [firstValue, secondValue] at same
          have items := congrArg List.length (Json.array.inj (stringify_inj same))
          cases items
        | some next =>
          rw [firstValue, secondValue] at same
          have items := Json.array.inj (stringify_inj same)
          have owners : some (orNull (value.get? "ownerHostId"))
              = some (orNull (next.get? "ownerHostId")) :=
            congrArg (fun items : List Json => items[6]?) items
          have roots : some (orNull (value.get? "rootId")) = some (orNull (next.get? "rootId")) :=
            congrArg (fun items : List Json => items[5]?) items
          dsimp only
          rw [← text?_orNull (value.get? "ownerHostId"), ← text?_orNull (value.get? "rootId"), owners,
            roots, text?_orNull, text?_orNull]

/-- A version of a file does not come back under its stamp: between two instants with the same stamp
the file was not written.
-/
def Unrepeated (file : Nat → Option FileVersion) : Prop :=
  ∀ i j k first last, i ≤ j → j ≤ k → file i = some first → file k = some last →
    first.stat = last.stat → file j = some first

/-- The stamps of files and of the shared state change whenever what they stamp does. -/
structure StampsTell (world : Nat → World) : Prop where
  participants : ∀ hash, Unrepeated fun instant => (world instant).participants hash
  leases : ∀ name, Unrepeated fun instant => (world instant).leases name
  shared : ∀ i j k, i ≤ j → j ≤ k → (world i).sharedStamp = (world k).sharedStamp →
    (world j).shared = (world i).shared

/-- A file that was not there when its stamp was taken, held a record when it was read at the next
instant, and is not there at the check.
-/
def Flickers {α : Type} (file : Nat → Option FileVersion) (parse : FileVersion → Option α)
    (instant last : Nat)
    : Prop :=
  file instant = none ∧ ((file (instant + 1)).bind parse).isSome = true ∧ file last = none

/-- A file whose stamp is the observed one reads as it did, unless it flickers. -/
theorem read_eq_of_stamp {α : Type} {file : Nat → Option FileVersion} {parse : FileVersion → Option α}
    {instant last : Nat} (tells : Unrepeated file) (before : instant + 1 ≤ last)
    (steady : ¬Flickers file parse instant last)
    (same : stampOf (file last) = stampOf (file instant))
    : (file (instant + 1)).bind parse = (file last).bind parse := by
  cases stamped : file instant with
  | none =>
    rw [stamped] at same
    have gone : file last = none := Option.map_eq_none_iff.mp same
    rw [gone, Option.bind_none]
    refine Option.not_isSome_iff_eq_none.mp fun there => ?_
    exact steady ⟨stamped, there, gone⟩
  | some first =>
    rw [stamped] at same
    obtain ⟨version, there, stat⟩ := Option.map_eq_some_iff.mp same
    have between := tells instant (instant + 1) last first version (Nat.le_succ _) before stamped there
      stat.symm
    have still := tells instant last last first version (by omega) (Nat.le_refl _) stamped there
      stat.symm
    rw [between, still]

def participantAt (world : Nat → World) (id : JsString) (instant : Nat) : Option FileVersion :=
  (world instant).participantFile id

def leaseAt (world : Nat → World) (id : JsString) (instant : Nat) : Option FileVersion :=
  (world instant).leaseFile id

def parseParticipant (id : JsString) (file : FileVersion) : Option StateEntry :=
  entryOf file.text (digest id)

def parseLease (id : JsString) (file : FileVersion) : Option HostLease :=
  leaseOf file.text (fileName id)

section StillTrue

variable (options : ObservationOptions) (world : Nat → World) (last : Nat) (now : Time)

structure SameShared (facts : Option StateEntry → JsString)
    (valid : Option (StateEntry → Option Bool)) (key : JsString) (instant : Nat)
    : Prop where
  facts : facts ((world instant).shared key) = facts ((world last).shared key)
  validity : validity ((world instant).shared key) valid = validity ((world last).shared key) valid

/-- A participant reads as it was observed, and no deadline that was live has come. -/
structure SameParticipant (id : JsString) (record : ParticipantRecord) : Prop where
  file : participantFacts ((world (record.instant + 1)).readParticipant id)
    = participantFacts ((world last).readParticipant id)
  validity : validity ((world (record.instant + 1)).readParticipant id)
      (options.strict.map (·.participant))
    = validity ((world last).readParticipant id) (options.strict.map (·.participant))
  shared : SameShared world last participantFacts (options.strict.map (·.participant))
    (participantPrefix ++ digest id) (record.instant + 2)
  owners : record.owners
    = (participantRecord options record.instant record.stamp ((world last).readParticipant id)
      ((world last).shared (participantPrefix ++ digest id))).owners
  roots : record.roots
    = (participantRecord options record.instant record.stamp ((world last).readParticipant id)
      ((world last).shared (participantPrefix ++ digest id))).roots
  deadline : ∀ time, record.deadline = some time → now < time

def ownerDeadline (id : JsString) (lease shared : Nat) : Option Time :=
  hostDeadline id ((world shared).shared (hostPrefix ++ digest id)) ((world lease).readLease id)

/-- A deadline is the observed one, or a later one. -/
def NotEarlier (observed fresh : Option Time) : Prop :=
  fresh = observed ∨ ∃ before after, observed = some before ∧ fresh = some after ∧ before ≤ after

structure SameHost (id : JsString) (host : HostRecord) : Prop where
  lease : leaseFacts ((world (host.instant + 1)).readLease id) = leaseFacts ((world last).readLease id)
  shared : SameShared world last hostFacts (options.strict.map (·.host)) (hostPrefix ++ digest id)
    (host.instant + 2)
  deadline : ∀ time, host.deadline = some time → now < time
  effective : options.strict.isSome = true →
    NotEarlier (ownerDeadline world id (host.instant + 1) (host.instant + 2))
      (ownerDeadline world id last last)

/-- Every actor of the scope was observed, and it, its owners and the closures of its roots read as
they were observed.
-/
def StillTrue (observation : Observation) (actorIds scope : List JsString) : Prop :=
  ∀ id ∈ scope, id ∈ actorIds ∧ ∃ record, observation.participants.get? id = some record
    ∧ SameParticipant options world last now id record
    ∧ (∀ owner ∈ record.owners, ∃ host, observation.hosts.get? owner = some host
      ∧ SameHost options world last now owner host)
    ∧ ∀ root ∈ record.roots, observation.closures.get? root
      = some (closureFacts ((world last).shared (lineageClosurePrefix ++ digest root)))

/-- No file of an actor of the scope, or of an owner of it, flickers. -/
def Steady (observation : Observation) (scope : List JsString) : Prop :=
  ∀ id ∈ scope, ∀ record, observation.participants.get? id = some record →
    ¬Flickers (participantAt world id) (parseParticipant id) record.instant last
    ∧ ∀ owner ∈ record.owners, ∀ host, observation.hosts.get? owner = some host →
      ¬Flickers (leaseAt world owner) (parseLease owner) host.instant last

end StillTrue

end PiFabric.Ownership
