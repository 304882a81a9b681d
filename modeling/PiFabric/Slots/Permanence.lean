import PiFabric.Foundation.Outcome
import PiFabric.Slots.Admission

/-! Every run of admissions, removals and claim writes keeps the ledger: rows read back, actors
and requests stay unique, and a pair only gains roles until it is sealed.
-/

namespace PiFabric.Slots

open JsString Outcome
open Json (Members)

@[simp] theorem check_eq_ok {passes : Bool} {reason : Reason} {message : String} {result : Unit}
    : check passes reason message = .ok result ↔ passes = true := by
  cases passes <;> simp [check, refuse]

@[simp] theorem refuse_ne_ok {α : Type} {reason : Reason} {message : String} {value : α}
    : refuse reason message ≠ .ok value := by
  simp [refuse]

/-- What a row that reads back says. -/
structure Reads (key : JsString) (pair : Pair) (generation : JsString) : Prop where
  generation : pair.authorityGeneration = generation
  claimed : pair.claimKey ≠ [] ∧ positive pair.claimVersion = true ∧ pair.rootId ≠ []
    ∧ pair.topic ≠ []
  addressed : ∃ addr, address pair.claimKey = .ok addr ∧ key = addr.admissionKey
  roles : ∀ name role, pair.roles.get? name = some role → checkRole pair.sealed role = .ok ()

theorem mem_values {κ ν : Type} [DecidableEq κ] {map : JsMap κ ν} {value : ν}
    : value ∈ map.values ↔ ∃ key, map.get? key = some value := by
  simp only [JsMap.values, List.mem_map, JsMap.get?_eq_some_iff]
  constructor
  · rintro ⟨⟨key, found⟩, inside, rfl⟩
    exact ⟨key, inside⟩
  · rintro ⟨key, inside⟩
    exact ⟨(key, value), inside, rfl⟩

variable {key : JsString} {pair : Pair}

/-- A row reads back as itself, exactly where it is what it says. -/
theorem readPair_eq_ok {result : Pair} {generation : JsString}
    : readPair key pair generation = .ok result ↔ result = pair ∧ Reads key pair generation := by
  have marks : (pair.authorityGeneration = generation && !pair.claimKey.isEmpty
      && positive pair.claimVersion && !pair.rootId.isEmpty && !pair.topic.isEmpty) = true
      ↔ pair.authorityGeneration = generation ∧ pair.claimKey ≠ []
        ∧ positive pair.claimVersion = true ∧ pair.rootId ≠ [] ∧ pair.topic ≠ [] := by
    simp [and_assoc, Bool.and_eq_true]
  unfold readPair
  constructor
  · intro h
    obtain ⟨⟨⟩, marked, h⟩ := bind_eq_ok.mp h
    obtain ⟨addr, addressed, h⟩ := bind_eq_ok.mp h
    obtain ⟨⟨⟩, keyed, h⟩ := bind_eq_ok.mp h
    obtain ⟨⟨⟩, checked, h⟩ := bind_eq_ok.mp h
    rw [check_eq_ok] at marked keyed
    obtain ⟨generation, claimed⟩ := marks.mp marked
    refine ⟨(Except.ok.inj h).symm, generation, claimed, ⟨addr, addressed, of_decide_eq_true keyed⟩,
      ?_⟩
    intro name role placed
    exact forM_eq_ok.mp checked role (mem_values.mpr ⟨name, placed⟩)
  · rintro ⟨rfl, reads⟩
    obtain ⟨addr, addressed, keyed⟩ := reads.addressed
    refine bind_eq_ok.mpr ⟨(), check_eq_ok.mpr (marks.mpr ⟨reads.generation, reads.claimed⟩), ?_⟩
    refine bind_eq_ok.mpr ⟨addr, addressed, ?_⟩
    refine bind_eq_ok.mpr ⟨(), check_eq_ok.mpr (decide_eq_true keyed), ?_⟩
    refine bind_eq_ok.mpr ⟨(), forM_eq_ok.mpr ?_, rfl⟩
    intro role inside
    obtain ⟨name, placed⟩ := mem_values.mp inside
    exact reads.roles name role placed

variable {role : Role}

theorem admitted_or_sealed {pairSealed : Bool} (h : checkRole pairSealed role = .ok ())
    : role.state = .admitted ∨ pairSealed = true := by
  obtain ⟨-, -, h⟩ := bind_eq_ok.mp h
  simpa using check_eq_ok.mp h

def suffixOf : RoleName → JsString
  | .review => reviewSuffix
  | .security => securitySuffix

structure Placed (mesh : Mesh) (key : JsString) (row : Entry Pair) (name : RoleName) (role : Role)
    : Prop where
  held : mesh.rows.get? key = some row
  role : row.value.roles.get? name = some role

structure Sound (mesh : Mesh) : Prop where
  versions : ∀ key row, mesh.rows.get? key = some row → row.version = mesh.version key
  reads : ∀ key row, mesh.rows.get? key = some row →
    Reads key row.value row.value.authorityGeneration
  /-- The name of a role's spec ends as the role it fills. -/
  suffixes : ∀ key row name role, Placed mesh key row name role →
    ∃ text, named role.spec text = true ∧ suffixOf name <:+ text
  actors : ∀ key row name role key' row' name' role', Placed mesh key row name role →
    Placed mesh key' row' name' role' → role.actorId = role'.actorId → key = key' ∧ name = name'
  requests : ∀ key row name role key' row' name' role', Placed mesh key row name role →
    Placed mesh key' row' name' role' → row.value.rootId = row'.value.rootId →
    role.requestKey = role'.requestKey → key = key' ∧ name = name'

inductive Moves : RoleState → RoleState → Prop
  | revoke : Moves .admitted .revoking
  | retire : Moves .revoking .retired

/-- A pair after some writes: it is the same claim, its roles are the same but for their state,
and once it was sealed it gained none.
-/
structure Pair.Extends (before after : Pair) : Prop where
  generation : after.authorityGeneration = before.authorityGeneration
  claim : after.claimKey = before.claimKey ∧ after.claimVersion = before.claimVersion
    ∧ after.rootId = before.rootId ∧ after.topic = before.topic
  stays : before.sealed = true → after.sealed = true
  roles : ∀ name role, before.roles.get? name = some role →
    ∃ state, after.roles.get? name = some { role with state }
      ∧ Relation.ReflTransGen Moves role.state state
  closed : before.sealed = true → ∀ name, before.roles.get? name = none →
    after.roles.get? name = none

def Mesh.Extends (before after : Mesh) : Prop :=
  ∀ key row, before.rows.get? key = some row →
    ∃ row', after.rows.get? key = some row' ∧ row.value.Extends row'.value

theorem Pair.Extends.refl (pair : Pair) : pair.Extends pair where
  generation := rfl
  claim := ⟨rfl, rfl, rfl, rfl⟩
  stays := id
  roles := fun _ role placed => ⟨role.state, placed, .refl⟩
  closed := fun _ _ absent => absent

theorem Pair.Extends.trans {first second third : Pair} (hf : first.Extends second)
    (hs : second.Extends third)
    : first.Extends third where
  generation := hs.generation.trans hf.generation
  claim := ⟨hs.claim.1.trans hf.claim.1, hs.claim.2.1.trans hf.claim.2.1,
    hs.claim.2.2.1.trans hf.claim.2.2.1, hs.claim.2.2.2.trans hf.claim.2.2.2⟩
  stays := fun closed => hs.stays (hf.stays closed)
  roles := by
    intro name role placed
    obtain ⟨state, kept, moved⟩ := hf.roles name role placed
    obtain ⟨later, still, further⟩ := hs.roles name _ kept
    exact ⟨later, still, moved.trans further⟩
  closed := fun closed name absent => hs.closed (hf.stays closed) name (hf.closed closed name absent)

theorem Mesh.Extends.refl (mesh : Mesh) : mesh.Extends mesh :=
  fun _ row placed => ⟨row, placed, .refl row.value⟩

theorem Mesh.Extends.trans {first second third : Mesh} (hf : first.Extends second)
    (hs : second.Extends third)
    : first.Extends third := by
  intro key row placed
  obtain ⟨row', kept, extended⟩ := hf key row placed
  obtain ⟨row'', still, further⟩ := hs key row' kept
  exact ⟨row'', still, extended.trans further⟩

/-- A pair of the claim epoch, root and topic that a birth names. -/
structure Epoch (authority : Authority) (birth : Birth) (pair : Pair) : Prop where
  generation : pair.authorityGeneration = authority.generation
  claim : pair.claimKey = birth.address.key
  version : pair.claimVersion = birth.claimVersion
  root : pair.rootId = birth.callerId
  topic : pair.topic = birth.topic

/-- The pair that a birth goes into. -/
inductive Base (authority : Authority) (birth : Birth) (mesh : Mesh) : Pair → Prop
  | fresh (absent : mesh.rows.get? birth.address.admissionKey = none)
      : Base authority birth mesh (birth.pair authority)
  | open {row : Entry Pair} (placed : mesh.rows.get? birth.address.admissionKey = some row)
      (epoch : Epoch authority birth row.value) (unsealed : row.value.sealed = false)
      : Base authority birth mesh row.value

/-- A birth that may be written. -/
structure Bears (authority : Authority) (birth : Birth) (mesh : Mesh) (pair : Pair)
    (name : RoleName) : Prop where
  base : Base authority birth mesh pair
  free : pair.roles.get? name = none
  suffix : suffixOf name <:+ birth.name
  actor : ∀ key row name role, Placed mesh key row name role → role.actorId ≠ birth.actorId
  request : ∀ key row name role, Placed mesh key row name role →
    row.value.rootId = birth.callerId → role.requestKey ≠ birth.requestKey

variable {authority : Authority} {birth : Birth} {name : RoleName}

/-- The roles that a claim gives end as they are named. -/
theorem claimedRole_suffix {claim : Option (Entry Json)}
    (h : claimedRole authority birth claim = .ok name)
    : suffixOf name <:+ birth.name := by
  unfold claimedRole at h
  cases claim with
  | none => exact absurd h refuse_ne_ok
  | some claim =>
      obtain ⟨-, -, h⟩ := bind_eq_ok.mp h
      obtain ⟨-, -, h⟩ := bind_eq_ok.mp h
      obtain ⟨-, -, h⟩ := bind_eq_ok.mp h
      obtain ⟨⟨⟩, canonical, h⟩ := bind_eq_ok.mp h
      have canonical := check_eq_ok.mp canonical
      simp only [canonicalNames, Bool.and_eq_true, decide_eq_true_eq] at canonical
      unfold roleOf at h
      split at h
      · next same =>
          rw [← Except.ok.inj h, same]
          exact List.isSuffixOf_iff_suffix.mp canonical.1
      split at h
      · next same =>
          rw [← Except.ok.inj h, same, canonical.2]
          exact List.suffix_append ..
      · exact absurd h refuse_ne_ok

variable {maxEventBytes : Nat} {plan : Plan}

variable {ifVersion : Nat}

theorem bear_ok {mesh : Mesh} {pair : Option Pair}
    (h : bear authority maxEventBytes birth mesh pair ifVersion = .ok plan)
    (base : Base authority birth mesh (pair.getD (birth.pair authority)))
    : ∃ name, Bears authority birth mesh (pair.getD (birth.pair authority)) name
      ∧ plan = {
        role := birth.role
        reused := false
        put := some {
          key := birth.address.admissionKey
          pair := { pair.getD (birth.pair authority) with
            roles := (pair.getD (birth.pair authority)).roles.set name birth.role }
          ifVersion
        }
      } := by
  obtain ⟨name, claimed, h⟩ := bind_eq_ok.mp h
  obtain ⟨⟨⟩, free, h⟩ := bind_eq_ok.mp h
  obtain ⟨⟨⟩, incumbents, h⟩ := bind_eq_ok.mp h
  obtain ⟨-, -, h⟩ := bind_eq_ok.mp h
  have fresh (key : JsString) (row : Entry Pair) (other : RoleName) (role : Role)
      (placed : Placed mesh key row other role)
      : role.actorId ≠ birth.actorId
        ∧ (row.value.rootId = birth.callerId → role.requestKey ≠ birth.requestKey) := by
    have inside := JsMap.get?_eq_some_iff.mp placed.held
    obtain ⟨incumbent, read, checked⟩ := bind_eq_ok.mp (forM_eq_ok.mp incumbents _ inside)
    obtain ⟨rfl, -⟩ := readPair_eq_ok.mp read
    have apart := List.all_eq_true.mp (check_eq_ok.mp checked) role
      (mem_values.mpr ⟨other, placed.role⟩)
    simpa [imp_iff_not_or] using apart
  refine ⟨name, ⟨base, ?_, claimedRole_suffix claimed, ?_, ?_⟩, (Except.ok.inj h).symm⟩
  · cases pair with
    | none => rfl
    | some pair =>
        have unheld : ¬pair.roles.has name = true := by simpa using free
        rw [JsMap.has_iff] at unheld
        exact JsMap.get?_eq_none_iff.mpr unheld
  · exact fun key row other role placed => (fresh key row other role placed).1
  · exact fun key row other role placed => (fresh key row other role placed).2

/-- The role that a retry finds again. -/
structure Reuses (authority : Authority) (birth : Birth) (mesh : Mesh) (role : Role) : Prop where
  placed : ∃ row name, Placed mesh birth.address.admissionKey row name role
    ∧ Epoch authority birth row.value
  name : named role.spec birth.name = true
  state : role.state = .admitted
  request : role.requestKey = birth.requestKey ∧ role.specHash = birth.specHash
    ∧ role.registryRoot = birth.registryRoot

theorem prepare_ok {mesh : Mesh} (h : prepare authority maxEventBytes birth mesh = .ok plan)
    : (∃ role, Reuses authority birth mesh role ∧ plan = { role, reused := true, put := none })
      ∨ ∃ pair name ifVersion, Bears authority birth mesh pair name
        ∧ plan = {
          role := birth.role
          reused := false
          put := some {
            key := birth.address.admissionKey
            pair := { pair with roles := pair.roles.set name birth.role }
            ifVersion
          }
        } := by
  unfold prepare at h
  cases found : mesh.rows.get? birth.address.admissionKey with
  | none =>
      rw [found] at h
      obtain ⟨name, bears, rfl⟩ := bear_ok h (.fresh found)
      exact .inr ⟨_, name, _, bears, rfl⟩
  | some old =>
      rw [found] at h
      obtain ⟨pair, read, h⟩ := bind_eq_ok.mp h
      obtain ⟨⟨⟩, epoch, h⟩ := bind_eq_ok.mp h
      obtain ⟨rfl, reads⟩ := readPair_eq_ok.mp read
      have epoch := check_eq_ok.mp epoch
      simp only [Bool.and_eq_true, decide_eq_true_eq, Bool.not_eq_true'] at epoch
      obtain ⟨⟨⟨⟨claim, version⟩, root⟩, topic⟩, unsealed⟩ := epoch
      have epoch : Epoch authority birth old.value :=
        ⟨reads.generation, claim, version, root, topic⟩
      cases existing : old.value.roles.values.find? fun role => named role.spec birth.name with
      | some role =>
          rw [existing] at h
          obtain ⟨⟨⟩, same, h⟩ := bind_eq_ok.mp h
          have same := check_eq_ok.mp same
          simp only [Bool.and_eq_true, decide_eq_true_eq] at same
          obtain ⟨name, placed⟩ := mem_values.mp (List.mem_of_find?_eq_some existing)
          refine .inl ⟨role, ⟨⟨old, name, ⟨found, placed⟩, epoch⟩, ?_, same.1.1.1,
            ⟨same.1.1.2, same.1.2, same.2⟩⟩, (Except.ok.inj h).symm⟩
          simpa using List.find?_some existing
      | none =>
          rw [existing] at h
          obtain ⟨name, bears, rfl⟩ := bear_ok h (.open found epoch unsealed)
          exact .inr ⟨_, name, _, bears, rfl⟩

/-- The role of an actor, before and after a removal. -/
structure Removes (mesh : Mesh) (state : RoleState) (put : Put) (row : Entry Pair)
    (name : RoleName) (role : Role) : Prop where
  placed : Placed mesh put.key row name role
  moves : Moves role.state state
  pair : put.pair = { row.value with
    sealed := true
    roles := row.value.roles.set name { role with state } }

/-- A removal, as `beginRemoval` and `retire` ask for it. -/
def Removal (state : RoleState) : Prop :=
  state = .revoking ∨ state = .retired

theorem moves_of_removal {before after : RoleState} (removal : Removal after)
    (unlike : ¬(before = .retired ∨ before = after))
    (ordered : ¬(after = .retired ∧ before ≠ .revoking))
    : Moves before after := by
  rcases removal with rfl | rfl
  · cases before with
    | admitted => exact .revoke
    | revoking => exact absurd (.inr rfl) unlike
    | retired => exact absurd (.inl rfl) unlike
  · cases before with
    | admitted => exact absurd ⟨rfl, by simp⟩ ordered
    | revoking => exact .retire
    | retired => exact absurd (.inl rfl) unlike

theorem transition_ok {actorId registryRoot : JsString} {topics : List JsString} {state : RoleState}
    {mesh : Mesh} {put : Put} (removal : Removal state)
    (h : transition authority actorId registryRoot topics state mesh = .ok (some put))
    : ∃ row name role, Removes mesh state put row name role := by
  obtain ⟨found, read, h⟩ := bind_eq_ok.mp h
  cases found with
  | none => exact absurd h refuse_ne_ok
  | some found =>
      obtain ⟨⟨⟩, -, read⟩ := bind_eq_ok.mp read
      have listed : found ∈ mesh.rows.entries.flatMap (matches_ actorId registryRoot) := by
        split at read
        · exact absurd read (by simp)
        · next only =>
            rw [only, Option.some.inj (Except.ok.inj read)]
            exact List.mem_singleton_self _
        · exact absurd read refuse_ne_ok
      obtain ⟨entry, inside, matched⟩ := List.mem_flatMap.mp listed
      obtain ⟨role, kept, rfl⟩ := List.mem_map.mp matched
      have placed : Placed mesh entry.1 entry.2 role.1 role.2 :=
        ⟨JsMap.get?_eq_some_iff.mpr inside,
          JsMap.get?_eq_some_iff.mpr (List.mem_of_mem_filter kept)⟩
      simp only at h
      split at h
      · exact absurd h refuse_ne_ok
      split at h
      · exact absurd h (by simp)
      next unlike =>
      split at h
      · exact absurd h refuse_ne_ok
      next ordered =>
      obtain rfl := Option.some.inj (Except.ok.inj h)
      exact ⟨entry.2, role.1, role.2, placed, moves_of_removal removal unlike ordered, rfl⟩

/-- What another writer, an admission on its own view, or a removal does to the mesh. Any
coordinator may act, with whatever authority it is bound to.
-/
inductive Step (maxEventBytes : Nat) : Mesh → Mesh → Prop
  /-- Claims are written and deleted at will. -/
  | claims {mesh : Mesh} (claims : JsString → Option (Entry Json))
      : Step maxEventBytes mesh { mesh with claims }
  | births {mesh next : Mesh} {authority : Authority} {input : Input} {birth : Birth} {plan : Plan}
      {issued : Nat} (checked : validate authority maxEventBytes input = .ok birth)
      (planned : prepare authority maxEventBytes birth mesh = .ok plan)
      (committed : mesh.commit input.caller issued plan.put = some next)
      : Step maxEventBytes mesh next
  /-- The plan was made on an earlier view, and neither the claim nor the ledger has changed. -/
  | birthsPlanned {early mesh next : Mesh} {authority : Authority} {input : Input} {birth : Birth}
      {plan : Plan} {issued : Nat} (checked : validate authority maxEventBytes input = .ok birth)
      (planned : prepare authority maxEventBytes birth early = .ok plan)
      (claim : early.claims birth.address.key = mesh.claims birth.address.key)
      (ledger : early.rows = mesh.rows)
      (committed : mesh.commit input.caller issued (plan.rebased mesh).put = some next)
      : Step maxEventBytes mesh next
  | remove {mesh next : Mesh} {authority : Authority} {actorId registryRoot : JsString}
      {topics : List JsString} {state : RoleState} {put : Option Put} {issued : Nat}
      (removal : Removal state)
      (planned : transition authority actorId registryRoot topics state mesh = .ok put)
      (committed : mesh.commit { kind := lit "main", id := authority.hubRootId } issued put
        = some next)
      : Step maxEventBytes mesh next

/-- A mesh whose ledger began empty. -/
def Reachable (maxEventBytes : Nat) (mesh : Mesh) : Prop :=
  ∃ claims version,
    Relation.ReflTransGen (Step maxEventBytes) { claims, rows := JsMap.empty, version } mesh

theorem bear_rebased {early mesh : Mesh} {pair : Option Pair}
    (claim : early.claims birth.address.key = mesh.claims birth.address.key)
    (ledger : early.rows = mesh.rows)
    (h : bear authority maxEventBytes birth early pair ifVersion = .ok plan)
    : bear authority maxEventBytes birth mesh pair (mesh.version birth.address.admissionKey)
      = .ok (plan.rebased mesh) := by
  unfold bear at h ⊢
  rw [← claim, ← ledger]
  obtain ⟨name, claimed, h⟩ := bind_eq_ok.mp h
  obtain ⟨⟨⟩, free, h⟩ := bind_eq_ok.mp h
  obtain ⟨⟨⟩, incumbents, h⟩ := bind_eq_ok.mp h
  obtain ⟨⟨⟩, fits, h⟩ := bind_eq_ok.mp h
  obtain rfl := Except.ok.inj h
  refine bind_eq_ok.mpr ⟨name, claimed, bind_eq_ok.mpr ⟨(), free, bind_eq_ok.mpr ⟨(), incumbents,
    bind_eq_ok.mpr ⟨(), fits, rfl⟩⟩⟩⟩

/-- A plan made on a view whose claim and ledger still stand is, at the live revision of the row,
the plan that the transaction itself would make.
-/
theorem prepare_rebased {early mesh : Mesh} (sound : Sound mesh)
    (claim : early.claims birth.address.key = mesh.claims birth.address.key)
    (ledger : early.rows = mesh.rows) (h : prepare authority maxEventBytes birth early = .ok plan)
    : prepare authority maxEventBytes birth mesh = .ok (plan.rebased mesh) := by
  unfold prepare at h ⊢
  rw [ledger] at h
  cases found : mesh.rows.get? birth.address.admissionKey with
  | none =>
      rw [found] at h
      exact bear_rebased claim ledger h
  | some old =>
      rw [found] at h
      obtain ⟨pair, read, h⟩ := bind_eq_ok.mp h
      obtain ⟨⟨⟩, epoch, h⟩ := bind_eq_ok.mp h
      refine bind_eq_ok.mpr ⟨pair, read, bind_eq_ok.mpr ⟨(), epoch, ?_⟩⟩
      cases existing : pair.roles.values.find? fun role => named role.spec birth.name with
      | some role =>
          rw [existing] at h
          obtain ⟨⟨⟩, same, h⟩ := bind_eq_ok.mp h
          obtain rfl := Except.ok.inj h
          exact bind_eq_ok.mpr ⟨(), same, rfl⟩
      | none =>
          rw [existing] at h
          have live := bear_rebased claim ledger h
          rwa [← sound.versions _ _ found] at live

structure Checked (birth : Birth) : Prop where
  nonempty : birth.actorId ≠ [] ∧ birth.requestKey ≠ [] ∧ birth.registryRoot ≠ []
    ∧ birth.callerId ≠ [] ∧ birth.topic ≠ []
  claim : birth.address.key ≠ [] ∧ address birth.address.key = .ok birth.address
    ∧ positive birth.claimVersion = true
  id : Json.strictEqual (birth.spec.get? "id") (some (.string birth.actorId)) = true
  name : birth.name ≠ [] → named birth.spec birth.name = true
  hash : isSpecHash birth.specHash = true

theorem address_key {addr : Address} (h : address key = .ok addr)
    : addr.key = key := by
  unfold address at h
  split at h
  · simp only at h
    split at h
    · rw [← Except.ok.inj h]
    · exact absurd h refuse_ne_ok
  · exact absurd h refuse_ne_ok

variable {request : Members}

theorem slotClaim_ok {version : Nat} (h : slotClaim request = .ok (key, version))
    : key ≠ [] ∧ positive version = true := by
  unfold slotClaim at h
  split at h
  · split at h
    · split at h
      · next shaped =>
          obtain ⟨rfl, rfl⟩ := Prod.mk.inj (Except.ok.inj h)
          simp only [Bool.and_eq_true, Bool.not_eq_true', List.isEmpty_eq_false_iff] at shaped
          exact ⟨shaped.1.1, shaped.2⟩
      · exact absurd h refuse_ne_ok
    · exact absurd h refuse_ne_ok
  · exact absurd h refuse_ne_ok

theorem requestKey_ok (h : requestKey request = .ok key)
    : key ≠ [] := by
  unfold requestKey at h
  split at h
  · split at h
    · next shaped =>
        obtain rfl := Except.ok.inj h
        simp only [Bool.and_eq_true, Bool.not_eq_true', List.isEmpty_eq_false_iff] at shaped
        exact shaped.1
    · exact absurd h refuse_ne_ok
  · exact absurd h refuse_ne_ok

theorem matchRoute_topic {route : Route} {topic : JsString} {found : SlotTopic}
    (h : matchRoute route topic = some found) (named : route.topic ≠ [])
    : found.topic ≠ [] := by
  unfold matchRoute at h
  split at h
  · next same =>
      rw [← Option.some.inj h]
      exact same ▸ named
  split at h
  · next shard =>
      rw [← Option.some.inj h]
      intro empty
      have front := List.isPrefixOf_iff_prefix.mp shard
      rw [show topic = [] from empty, List.prefix_nil] at front
      exact named (List.append_eq_nil_iff.mp front).1
  · exact absurd h (by simp)

theorem target_topic {found : SlotTopic} (h : target authority request = .ok found)
    : found.topic ≠ [] := by
  unfold target at h
  split at h
  · next only listed =>
      split at h
      · obtain rfl := Except.ok.inj h
        have member : only ∈ (texts (request.get? "topics")).eraseDups.filterMap
            (matchSlotTopic authority.routes) := by simp [listed]
        obtain ⟨topic, -, matched⟩ := List.mem_filterMap.mp member
        obtain ⟨route, inside, found⟩ := List.exists_of_findSome?_eq_some matched
        exact matchRoute_topic found (authority.topicsNamed route inside)
      · exact absurd h refuse_ne_ok
  · exact absurd h refuse_ne_ok

theorem isSpecHash_hex (message : List UInt8) : isSpecHash (Sha256.hex message) = true := by
  rw [isSpecHash, Sha256.length_hex, Bool.and_eq_true, List.all_eq_true]
  exact ⟨rfl, fun _ inside => Sha256.isHexUnit_of_mem_hex inside⟩

theorem eq_some_of_strictEqual {value : Option Json} {text : JsString}
    (h : Json.strictEqual value (some (.string text)) = true)
    : value = some (.string text) :=
  Json.eq_of_strictEqual h

theorem validate_ok {input : Input} (h : validate authority maxEventBytes input = .ok birth)
    : Checked birth := by
  obtain ⟨⟨⟩, registry, h⟩ := bind_eq_ok.mp h
  obtain ⟨⟨⟩, caller, h⟩ := bind_eq_ok.mp h
  obtain ⟨receiver, targeted, h⟩ := bind_eq_ok.mp h
  obtain ⟨⟨key, version⟩, claimed, h⟩ := bind_eq_ok.mp h
  obtain ⟨addr, addressed, h⟩ := bind_eq_ok.mp h
  obtain ⟨-, -, h⟩ := bind_eq_ok.mp h
  obtain ⟨stable, keyed, h⟩ := bind_eq_ok.mp h
  obtain ⟨⟨⟩, actor, h⟩ := bind_eq_ok.mp h
  obtain ⟨⟨⟩, matching, h⟩ := bind_eq_ok.mp h
  obtain ⟨-, -, h⟩ := bind_eq_ok.mp h
  obtain rfl := Except.ok.inj h
  rw [check_eq_ok] at registry caller actor matching
  obtain ⟨nonempty, safe⟩ := slotClaim_ok claimed
  have same : addr.key = key := address_key addressed
  simp only [specMatches, Bool.and_eq_true] at matching
  obtain ⟨⟨⟨⟨⟨id, named_⟩, -⟩, -⟩, -⟩, -⟩ := matching
  constructor
  · refine ⟨by simpa using actor, requestKey_ok keyed, ?_, ?_, target_topic targeted⟩
    · exact authority.registriesNamed _ (by simpa using registry)
    · rw [Bool.and_eq_true] at caller
      exact authority.rootsNamed _ (by simpa using caller.2)
  · exact ⟨same ▸ nonempty, same ▸ addressed, safe⟩
  · exact id
  · intro some_
    have equal := Json.eq_of_strictEqual named_
    unfold named
    simp only at some_ ⊢
    rw [equal]
    cases given : (normalizedMembers input.request).get? "name" with
    | none =>
        rw [given] at some_
        exact absurd rfl some_
    | some value =>
        rw [given] at some_
        cases value with
        | string text => simp [Json.text?, Json.strictEqual]
        | _ => exact absurd rfl some_
  · exact isSpecHash_hex _

section

variable {mesh next : Mesh} {writer : Identity} {issued : Nat}

theorem commit_none (h : mesh.commit writer issued none = some next) : next = mesh :=
  (Option.some.inj h).symm

structure Wrote (mesh next : Mesh) (put : Put) (row : Entry Pair) : Prop where
  value : row.value = put.pair
  rows : ∀ key, next.rows.get? key = if key = put.key then some row else mesh.rows.get? key
  version : row.version = next.version put.key
  others : ∀ key, key ≠ put.key → next.version key = mesh.version key
  claims : next.claims = mesh.claims

variable {put : Put}

theorem commit_some (h : mesh.commit writer issued (some put) = some next)
    : ∃ row, Wrote mesh next put row := by
  unfold Mesh.commit at h
  simp only at h
  split at h
  · obtain rfl := Option.some.inj h
    exact ⟨{ value := put.pair, version := issued, updatedBy := writer }, rfl,
      fun key => JsMap.get?_set .., by simp,
      fun key apart => Function.update_of_ne apart .., rfl⟩
  · exact absurd h (by simp)

variable {row : Entry Pair}

/-- A role after one put stands in the put pair, or where it stood. -/
theorem Wrote.placed (wrote : Wrote mesh next put row) {held : Entry Pair} {role : Role}
    (placed : Placed next key held name role)
    : key = put.key ∧ held = row ∧ put.pair.roles.get? name = some role
      ∨ key ≠ put.key ∧ Placed mesh key held name role := by
  have found := placed.held
  rw [wrote.rows] at found
  by_cases same : key = put.key
  · rw [if_pos same] at found
    obtain rfl := Option.some.inj found
    exact .inl ⟨same, rfl, wrote.value ▸ placed.role⟩
  · rw [if_neg same] at found
    exact .inr ⟨same, found, placed.role⟩

/-- Where a role of a put pair comes from: the same place, or nowhere. -/
inductive Origin (mesh : Mesh) (put : Put) (new name : RoleName) (role : Role) : Prop
  | old {row : Entry Pair} {before : Role} (placed : Placed mesh put.key row name before)
      (actor : before.actorId = role.actorId) (request : before.requestKey = role.requestKey)
      (root : row.value.rootId = put.pair.rootId)
  | new (only : name = new)
      (actor : ∀ key row other before, Placed mesh key row other before →
        before.actorId ≠ role.actorId)
      (request : ∀ key row other before, Placed mesh key row other before →
        row.value.rootId = put.pair.rootId → before.requestKey ≠ role.requestKey)

/-- A put whose roles come from their own places, but for one, keeps the ledger sound. -/
theorem Sound.wrote (h : Sound mesh) (wrote : Wrote mesh next put row)
    (reads : Reads put.key put.pair put.pair.authorityGeneration)
    (suffixes : ∀ name role, put.pair.roles.get? name = some role →
      ∃ text, named role.spec text = true ∧ suffixOf name <:+ text) (new : RoleName)
    (origin : ∀ name role, put.pair.roles.get? name = some role →
      Origin mesh put new name role)
    : Sound next where
  versions := by
    intro key held found
    rw [wrote.rows] at found
    split at found
    · next same =>
        rw [← Option.some.inj found, same]
        exact wrote.version
    · next apart =>
        rw [wrote.others key apart]
        exact h.versions key held found
  reads := by
    intro key held found
    rw [wrote.rows] at found
    split at found
    · next same =>
        rw [← Option.some.inj found, wrote.value, same]
        exact reads
    · exact h.reads key held found
  suffixes := by
    intro key held name role placed
    rcases wrote.placed placed with ⟨-, -, inside⟩ | ⟨-, before⟩
    · exact suffixes name role inside
    · exact h.suffixes key held name role before
  actors := by
    intro key held name role key' held' name' role' placed placed' same
    rcases wrote.placed placed with ⟨here, -, inside⟩ | ⟨apart, before⟩ <;>
      rcases wrote.placed placed' with ⟨here', -, inside'⟩ | ⟨apart', before'⟩
    · refine ⟨here.trans here'.symm, ?_⟩
      rcases origin name role inside with ⟨old, actor, -, -⟩ | ⟨only, actor, -⟩ <;>
        rcases origin name' role' inside' with ⟨old', actor', -, -⟩ | ⟨only', actor', -⟩
      · exact (h.actors _ _ _ _ _ _ _ _ old old' (actor.trans (same.trans actor'.symm))).2
      · exact absurd (actor.trans same) (actor' _ _ _ _ old)
      · exact absurd (actor'.trans same.symm) (actor _ _ _ _ old')
      · exact only.trans only'.symm
    · rcases origin name role inside with ⟨old, actor, -, -⟩ | ⟨-, actor, -⟩
      · have equal := h.actors _ _ _ _ _ _ _ _ old before' (actor.trans same)
        exact absurd equal.1.symm apart'
      · exact absurd same.symm (actor _ _ _ _ before')
    · rcases origin name' role' inside' with ⟨old, actor, -, -⟩ | ⟨-, actor, -⟩
      · have equal := h.actors _ _ _ _ _ _ _ _ before old (same.trans actor.symm)
        exact absurd equal.1 apart
      · exact absurd same (actor _ _ _ _ before)
    · exact h.actors _ _ _ _ _ _ _ _ before before' same
  requests := by
    intro key held name role key' held' name' role' placed placed' root same
    rcases wrote.placed placed with ⟨here, rfl, inside⟩ | ⟨apart, before⟩ <;>
      rcases wrote.placed placed' with ⟨here', at_, inside'⟩ | ⟨apart', before'⟩
    · refine ⟨here.trans here'.symm, ?_⟩
      rcases origin name role inside with ⟨old, -, request, owner⟩ | ⟨only, -, request⟩ <;>
        rcases origin name' role' inside' with ⟨old', -, request', owner'⟩ | ⟨only', -, request'⟩
      · exact (h.requests _ _ _ _ _ _ _ _ old old' (owner.trans owner'.symm)
          (request.trans (same.trans request'.symm))).2
      · exact absurd (request.trans same) (request' _ _ _ _ old owner)
      · exact absurd (request'.trans same.symm) (request _ _ _ _ old' owner')
      · exact only.trans only'.symm
    · rw [wrote.value] at root
      rcases origin name role inside with ⟨old, -, request, owner⟩ | ⟨-, -, request⟩
      · have equal := h.requests _ _ _ _ _ _ _ _ old before' (owner.trans root)
          (request.trans same)
        exact absurd equal.1.symm apart'
      · exact absurd same.symm (request _ _ _ _ before' root.symm)
    · rw [at_, wrote.value] at root
      rcases origin name' role' inside' with ⟨old, -, request, owner⟩ | ⟨-, -, request⟩
      · have equal := h.requests _ _ _ _ _ _ _ _ before old (root.trans owner.symm)
          (same.trans request.symm)
        exact absurd equal.1 apart
      · exact absurd same (request _ _ _ _ before root)
    · exact h.requests _ _ _ _ _ _ _ _ before before' root same

theorem Wrote.extends_ (wrote : Wrote mesh next put row)
    (pair : ∀ held, mesh.rows.get? put.key = some held → held.value.Extends put.pair)
    : mesh.Extends next := by
  intro key held found
  by_cases same : key = put.key
  · refine ⟨row, by rw [wrote.rows, if_pos same], ?_⟩
    rw [wrote.value]
    exact pair held (same ▸ found)
  · exact ⟨held, by rw [wrote.rows, if_neg same]; exact found, .refl _⟩

end

theorem Base.placed {mesh : Mesh} (base : Base authority birth mesh pair)
    (held : pair.roles.get? name = some role)
    : ∃ row, Placed mesh birth.address.admissionKey row name role
      ∧ row.value.rootId = birth.callerId ∧ row.value = pair := by
  cases base with
  | fresh absent => exact absurd held (by simp [Birth.pair])
  | @«open» row placed epoch unsealed => exact ⟨row, ⟨placed, held⟩, epoch.root, rfl⟩

theorem Base.unsealed {mesh : Mesh} (base : Base authority birth mesh pair)
    : pair.sealed = false ∧ Epoch authority birth pair := by
  cases base with
  | fresh absent => exact ⟨rfl, rfl, rfl, rfl, rfl, rfl⟩
  | «open» placed epoch unsealed => exact ⟨unsealed, epoch⟩

theorem Base.reads {mesh : Mesh} (base : Base authority birth mesh pair) (sound : Sound mesh)
    (checked : Checked birth)
    : Reads birth.address.admissionKey pair pair.authorityGeneration := by
  cases base with
  | fresh absent =>
      obtain ⟨key, addressed, version⟩ := checked.claim
      exact ⟨rfl, ⟨key, version, checked.nonempty.2.2.2.1, checked.nonempty.2.2.2.2⟩,
        ⟨_, addressed, rfl⟩, fun name role held => absurd held (by simp [Birth.pair])⟩
  | «open» placed epoch unsealed => exact sound.reads _ _ placed

theorem checkRole_birth (checked : Checked birth)
    : checkRole false birth.role = .ok () := by
  obtain ⟨actor, request, registry, -, -⟩ := checked.nonempty
  refine bind_eq_ok.mpr ⟨(), check_eq_ok.mpr ?_, check_eq_ok.mpr rfl⟩
  simp only [Birth.role, checked.hash, checked.id, Bool.and_true, Bool.and_eq_true,
    Bool.not_eq_true', List.isEmpty_eq_false_iff]
  exact ⟨⟨actor, request⟩, registry⟩

theorem Bears.sound {mesh next : Mesh} {row : Entry Pair}
    (bears : Bears authority birth mesh pair name) (checked : Checked birth) (h : Sound mesh)
    (wrote : Wrote mesh next {
      key := birth.address.admissionKey
      pair := { pair with roles := pair.roles.set name birth.role }
      ifVersion } row)
    : Sound next ∧ mesh.Extends next := by
  obtain ⟨unsealed, epoch⟩ := bears.base.unsealed
  have root := epoch.root
  have held (other : RoleName) (role : Role)
      (inside : (pair.roles.set name birth.role).get? other = some role)
      : other = name ∧ role = birth.role ∨ other ≠ name ∧ pair.roles.get? other = some role := by
    rw [JsMap.get?_set] at inside
    split at inside
    · next same => exact .inl ⟨same, (Option.some.inj inside).symm⟩
    · next apart => exact .inr ⟨apart, inside⟩
  have reads := bears.base.reads h checked
  constructor
  · refine h.wrote wrote ⟨rfl, reads.claimed, reads.addressed, ?_⟩ ?_ name ?_
    · intro other role inside
      rcases held other role inside with ⟨-, rfl⟩ | ⟨-, before⟩
      · simpa [unsealed] using checkRole_birth checked
      · exact reads.roles other role before
    · intro other role inside
      rcases held other role inside with ⟨rfl, rfl⟩ | ⟨-, before⟩
      · refine ⟨birth.name, checked.name ?_, bears.suffix⟩
        intro empty
        have suffix := bears.suffix
        rw [empty, List.suffix_nil] at suffix
        cases other <;> exact absurd suffix (by decide)
      · obtain ⟨old, placed, -, -⟩ := bears.base.placed before
        exact h.suffixes _ _ _ _ placed
    · intro other role inside
      rcases held other role inside with ⟨same, rfl⟩ | ⟨-, before⟩
      · refine .new same bears.actor ?_
        intro key row other before placed owner
        exact bears.request key row other before placed (owner.trans root)
      · obtain ⟨old, placed, owner, -⟩ := bears.base.placed before
        exact .old placed rfl rfl (owner.trans root.symm)
  · refine wrote.extends_ ?_
    intro before found
    have same : before.value = pair := by
      cases bears.base with
      | fresh absent => exact absurd (absent.symm.trans found) (by simp)
      | «open» placed epoch unsealed =>
          rw [Option.some.inj (placed.symm.trans found)]
    rw [same]
    refine ⟨rfl, ⟨rfl, rfl, rfl, rfl⟩, id, ?_, ?_⟩
    · intro other role inside
      have apart : other ≠ name := by
        rintro rfl
        exact absurd (bears.free.symm.trans inside) (by simp)
      exact ⟨role.state, (JsMap.get?_set ..).trans (if_neg apart |>.trans inside), .refl⟩
    · intro closed
      exact absurd (unsealed.symm.trans closed) (by simp)

theorem Removes.sound {mesh next : Mesh} {state : RoleState} {put : Put} {old row : Entry Pair}
    (removes : Removes mesh state put old name role) (h : Sound mesh)
    (wrote : Wrote mesh next put row)
    : Sound next ∧ mesh.Extends next := by
  have reads := h.reads _ _ removes.placed.held
  have held (other : RoleName) (after : Role) (inside : put.pair.roles.get? other = some after)
      : ∃ before, old.value.roles.get? other = some before
        ∧ (other = name ∧ before = role ∧ after = { role with state }
          ∨ other ≠ name ∧ after = before) := by
    rw [removes.pair] at inside
    simp only [JsMap.get?_set] at inside
    split at inside
    · next same =>
        exact ⟨role, same ▸ removes.placed.role, .inl ⟨same, rfl, (Option.some.inj inside).symm⟩⟩
    · next apart => exact ⟨after, inside, .inr ⟨apart, rfl⟩⟩
  have fields : put.pair.authorityGeneration = old.value.authorityGeneration
      ∧ put.pair.claimKey = old.value.claimKey ∧ put.pair.claimVersion = old.value.claimVersion
      ∧ put.pair.rootId = old.value.rootId ∧ put.pair.topic = old.value.topic
      ∧ put.pair.sealed = true := by
    rw [removes.pair]
    exact ⟨rfl, rfl, rfl, rfl, rfl, rfl⟩
  obtain ⟨generation, key, version, root, topic, closed⟩ := fields
  have roleOk (state : RoleState) (other : Role) (before : checkRole old.value.sealed other = .ok ())
      : checkRole true { other with state } = .ok () := by
    obtain ⟨⟨⟩, shape, -⟩ := bind_eq_ok.mp before
    exact bind_eq_ok.mpr ⟨(), shape, check_eq_ok.mpr (Bool.or_true _)⟩
  constructor
  · refine h.wrote wrote ⟨rfl, ?_, ?_, ?_⟩ ?_ name ?_
    · rw [key, version, root, topic]
      exact reads.claimed
    · rw [key]
      exact reads.addressed
    · intro other after inside
      obtain ⟨before, at_, ⟨-, rfl, rfl⟩ | ⟨-, rfl⟩⟩ := held other after inside
      · rw [closed]
        exact roleOk state before (reads.roles other before at_)
      · rw [closed]
        exact roleOk after.state after (reads.roles other after at_)
    · intro other after inside
      obtain ⟨before, at_, ⟨-, rfl, rfl⟩ | ⟨-, rfl⟩⟩ := held other after inside
      · exact h.suffixes _ _ _ before ⟨removes.placed.held, at_⟩
      · exact h.suffixes _ _ _ _ ⟨removes.placed.held, at_⟩
    · intro other after inside
      obtain ⟨before, at_, ⟨-, rfl, rfl⟩ | ⟨-, rfl⟩⟩ := held other after inside
      · exact .old ⟨removes.placed.held, at_⟩ rfl rfl root.symm
      · exact .old ⟨removes.placed.held, at_⟩ rfl rfl root.symm
  · refine wrote.extends_ ?_
    intro before found
    obtain rfl := Option.some.inj (removes.placed.held.symm.trans found)
    rw [removes.pair]
    refine ⟨rfl, ⟨rfl, rfl, rfl, rfl⟩, fun _ => rfl, ?_, ?_⟩
    · intro other kept inside
      by_cases same : other = name
      · subst same
        obtain rfl := Option.some.inj (removes.placed.role.symm.trans inside)
        exact ⟨state, (JsMap.get?_set ..).trans (if_pos rfl), .single removes.moves⟩
      · exact ⟨kept.state, (JsMap.get?_set ..).trans ((if_neg same).trans inside), .refl⟩
    · intro _ other absent
      have apart : other ≠ name := by
        rintro rfl
        exact absurd (removes.placed.role.symm.trans absent) (by simp)
      exact (JsMap.get?_set ..).trans ((if_neg apart).trans absent)

theorem admit_sound {mesh next : Mesh} {writer : Identity} {issued : Nat} (h : Sound mesh)
    (checked : Checked birth) (planned : prepare authority maxEventBytes birth mesh = .ok plan)
    (committed : mesh.commit writer issued plan.put = some next)
    : Sound next ∧ mesh.Extends next := by
  rcases prepare_ok planned with ⟨role, -, rfl⟩ | ⟨pair, name, ifVersion, bears, rfl⟩
  · obtain rfl := commit_none committed
    exact ⟨h, .refl _⟩
  · obtain ⟨row, wrote⟩ := commit_some committed
    exact bears.sound checked h wrote

theorem Step.sound {mesh next : Mesh} (step : Step maxEventBytes mesh next) (h : Sound mesh)
    : Sound next ∧ mesh.Extends next := by
  cases step with
  | claims claims =>
      refine ⟨⟨h.versions, h.reads, ?_, ?_, ?_⟩, .refl mesh⟩
      · exact fun key row name role placed => h.suffixes key row name role ⟨placed.held, placed.role⟩
      · intro key row name role key' row' name' role' placed placed'
        exact h.actors _ _ _ _ _ _ _ _ ⟨placed.held, placed.role⟩ ⟨placed'.held, placed'.role⟩
      · intro key row name role key' row' name' role' placed placed'
        exact h.requests _ _ _ _ _ _ _ _ ⟨placed.held, placed.role⟩ ⟨placed'.held, placed'.role⟩
  | births checked planned committed => exact admit_sound h (validate_ok checked) planned committed
  | birthsPlanned checked planned claim ledger committed =>
      exact admit_sound h (validate_ok checked) (prepare_rebased h claim ledger planned) committed
  | @remove _ _ _ _ _ _ _ put _ removal planned committed =>
      cases put with
      | none =>
          obtain rfl := commit_none committed
          exact ⟨h, .refl _⟩
      | some put =>
          obtain ⟨row, name, role, removes⟩ := transition_ok removal planned
          obtain ⟨new, wrote⟩ := commit_some committed
          exact removes.sound h wrote

theorem sound_empty (claims : JsString → Option (Entry Json)) (version : JsString → Nat)
    : Sound { claims, rows := JsMap.empty, version } where
  versions := by simp
  reads := by simp
  suffixes := fun _ _ _ _ placed => absurd placed.held (by simp)
  actors := fun _ _ _ _ _ _ _ _ placed => absurd placed.held (by simp)
  requests := fun _ _ _ _ _ _ _ _ placed => absurd placed.held (by simp)

theorem sound_of_run {mesh later : Mesh} (h : Sound mesh)
    (run : Relation.ReflTransGen (Step maxEventBytes) mesh later)
    : Sound later ∧ mesh.Extends later := by
  induction run with
  | refl => exact ⟨h, .refl mesh⟩
  | tail _ step ih =>
      obtain ⟨sound, extended⟩ := step.sound ih.1
      exact ⟨sound, ih.2.trans extended⟩

theorem Reachable.sound {mesh : Mesh} (h : Reachable maxEventBytes mesh)
    : Sound mesh := by
  obtain ⟨claims, version, run⟩ := h
  exact (sound_of_run (sound_empty claims version) run).1

end PiFabric.Slots
