import PiFabric.Slots.Permanence

/-! Retries of committed admissions. A retry finds the role that its first attempt wrote, whatever
was written since, until a removal seals the pair.
-/

namespace PiFabric.Slots

open JsString Outcome
open Json (Members)

/-- A request made again: only what every attempt makes anew may differ. -/
structure SameRequest (first again : Input) : Prop where
  request : again.request = first.request
  spec : immutableSpec (normalizedMembers again.spec) = immutableSpec (normalizedMembers first.spec)
  registryRoot : again.registryRoot = first.registryRoot
  caller : again.caller = first.caller

variable {authority : Authority} {maxEventBytes : Nat} {birth : Birth}

/-- Two births of one request differ in their preallocated actor and its spec only. -/
theorem validate_same {first again : Input} {birth' : Birth} (same : SameRequest first again)
    (h : validate authority maxEventBytes first = .ok birth)
    (h' : validate authority maxEventBytes again = .ok birth')
    : birth' = { birth with actorId := again.actorId, spec := normalizedMembers again.spec } := by
  obtain ⟨request, spec, registryRoot, caller⟩ := same
  obtain ⟨-, -, h⟩ := bind_eq_ok.mp h
  obtain ⟨-, -, h⟩ := bind_eq_ok.mp h
  obtain ⟨receiver, targeted, h⟩ := bind_eq_ok.mp h
  obtain ⟨claim, claimed, h⟩ := bind_eq_ok.mp h
  obtain ⟨addr, addressed, h⟩ := bind_eq_ok.mp h
  obtain ⟨-, -, h⟩ := bind_eq_ok.mp h
  obtain ⟨stable, keyed, h⟩ := bind_eq_ok.mp h
  obtain ⟨-, -, h⟩ := bind_eq_ok.mp h
  obtain ⟨-, -, h⟩ := bind_eq_ok.mp h
  obtain ⟨-, -, h⟩ := bind_eq_ok.mp h
  obtain ⟨-, -, h'⟩ := bind_eq_ok.mp h'
  obtain ⟨-, -, h'⟩ := bind_eq_ok.mp h'
  obtain ⟨receiver', targeted', h'⟩ := bind_eq_ok.mp h'
  obtain ⟨claim', claimed', h'⟩ := bind_eq_ok.mp h'
  obtain ⟨addr', addressed', h'⟩ := bind_eq_ok.mp h'
  obtain ⟨-, -, h'⟩ := bind_eq_ok.mp h'
  obtain ⟨stable', keyed', h'⟩ := bind_eq_ok.mp h'
  obtain ⟨-, -, h'⟩ := bind_eq_ok.mp h'
  obtain ⟨-, -, h'⟩ := bind_eq_ok.mp h'
  obtain ⟨-, -, h'⟩ := bind_eq_ok.mp h'
  rw [request] at targeted' claimed' keyed' h'
  obtain rfl := Except.ok.inj (targeted.symm.trans targeted')
  obtain rfl := Except.ok.inj (claimed.symm.trans claimed')
  obtain rfl := Except.ok.inj (addressed.symm.trans addressed')
  obtain rfl := Except.ok.inj (keyed.symm.trans keyed')
  obtain rfl := Except.ok.inj h
  obtain rfl := Except.ok.inj h'
  have print : fingerprint (normalizedMembers first.request) (normalizedMembers again.spec)
        again.registryRoot again.caller.id
      = fingerprint (normalizedMembers first.request) (normalizedMembers first.spec)
        first.registryRoot first.caller.id := by
    unfold fingerprint
    rw [spec, registryRoot, caller]
  rw [print, registryRoot, caller]

/-- One admission: its checks, its plan on the mesh, and the batch. -/
structure Commits (authority : Authority) (maxEventBytes : Nat) (input : Input) (birth : Birth)
    (plan : Plan) (mesh next : Mesh) : Prop where
  checked : validate authority maxEventBytes input = .ok birth
  planned : prepare authority maxEventBytes birth mesh = .ok plan
  committed : ∃ issued, mesh.commit input.caller issued plan.put = some next

structure Answers (authority : Authority) (birth : Birth) (mesh : Mesh) (role : Role)
    (row : Entry Pair) (name : RoleName) : Prop where
  placed : Placed mesh birth.address.admissionKey row name role
  epoch : Epoch authority birth row.value
  called : named role.spec birth.name = true
  request : role.requestKey = birth.requestKey ∧ role.specHash = birth.specHash
    ∧ role.registryRoot = birth.registryRoot

variable {plan : Plan} {mesh next : Mesh}

variable {input : Input}

theorem Commits.answers (commits : Commits authority maxEventBytes input birth plan mesh next)
    : plan.role.state = .admitted ∧ ∃ row name, Answers authority birth next plan.role row name := by
  obtain ⟨issued, committed⟩ := commits.committed
  rcases prepare_ok commits.planned with ⟨role, reuses, rfl⟩ | ⟨pair, name, _, bears, rfl⟩
  · obtain rfl := commit_none committed
    obtain ⟨row, name, placed, epoch⟩ := reuses.placed
    exact ⟨reuses.state, row, name, placed, epoch, reuses.name, reuses.request⟩
  · obtain ⟨row, wrote⟩ := commit_some committed
    have epoch := bears.base.unsealed.2
    have nonempty : birth.name ≠ [] := by
      intro empty
      have suffix := bears.suffix
      rw [empty, List.suffix_nil] at suffix
      cases name <;> exact absurd suffix (by decide)
    refine ⟨rfl, row, name, ⟨?_, ?_⟩, ?_, (validate_ok commits.checked).name nonempty, rfl, rfl, rfl⟩
    · exact (wrote.rows _).trans (if_pos rfl)
    · rw [wrote.value]
      exact (JsMap.get?_set ..).trans (if_pos rfl)
    · rw [wrote.value]
      exact ⟨epoch.generation, epoch.claim, epoch.version, epoch.root, epoch.topic⟩

variable {role : Role} {row : Entry Pair} {name : RoleName}

theorem Answers.later {later : Mesh} (answers : Answers authority birth mesh role row name)
    (extended : mesh.Extends later)
    : ∃ row' state, Answers authority birth later { role with state } row' name := by
  obtain ⟨row', held, pair⟩ := extended _ _ answers.placed.held
  obtain ⟨state, kept, -⟩ := pair.roles name role answers.placed.role
  obtain ⟨claim, version, root, topic⟩ := pair.claim
  have epoch := answers.epoch
  refine ⟨row', state, ⟨held, kept⟩, ?_, answers.called, answers.request⟩
  exact ⟨pair.generation.trans epoch.generation, claim.trans epoch.claim,
    version.trans epoch.version, root.trans epoch.root, topic.trans epoch.topic⟩

theorem Sound.name_unique (sound : Sound mesh) {key : JsString} {name' : RoleName} {role' : Role}
    {text : JsString} (placed : Placed mesh key row name role)
    (placed' : Placed mesh key row name' role') (same : named role.spec text = true)
    (same' : named role'.spec text = true)
    : name = name' := by
  obtain ⟨shown, is, suffix⟩ := sound.suffixes _ _ _ _ placed
  obtain ⟨shown', is', suffix'⟩ := sound.suffixes _ _ _ _ placed'
  have only {spec : Members} {first second : JsString} (hf : named spec first = true)
      (hs : named spec second = true) : first = second :=
    Json.string.inj (Option.some.inj ((eq_some_of_strictEqual hf).symm.trans
      (eq_some_of_strictEqual hs)))
  rw [only is same] at suffix
  rw [only is' same'] at suffix'
  have ordered := List.suffix_or_suffix_of_suffix suffix suffix'
  cases name <;> cases name'
  · rfl
  · exact absurd ordered (by decide)
  · exact absurd ordered (by decide)
  · rfl

theorem Answers.prepare (answers : Answers authority birth mesh role row name) (sound : Sound mesh)
    : Slots.prepare authority maxEventBytes birth mesh
      = if row.value.sealed then
          refuse .occupied "Slot generation is sealed or belongs to another claim epoch/root/topic"
        else .ok { role, reused := true, put := none } := by
  have epoch := answers.epoch
  have reads : Reads birth.address.admissionKey row.value authority.generation :=
    epoch.generation ▸ sound.reads _ _ answers.placed.held
  have read := readPair_eq_ok.mpr ⟨rfl, reads⟩
  have same : (row.value.claimKey = birth.address.key
      && row.value.claimVersion = birth.claimVersion && row.value.rootId = birth.callerId
      && row.value.topic = birth.topic) = true := by
    simp [epoch.claim, epoch.version, epoch.root, epoch.topic]
  unfold Slots.prepare
  simp only [answers.placed.held, read, same, bind, Except.bind]
  cases closed : row.value.sealed with
  | true => simp [check, refuse]
  | false =>
      have first : row.value.roles.values.find? (fun role => named role.spec birth.name)
          = some role := by
        have inside : role ∈ row.value.roles.values := mem_values.mpr ⟨name, answers.placed.role⟩
        cases found : row.value.roles.values.find? (fun role => named role.spec birth.name) with
        | none => exact absurd answers.called (List.find?_eq_none.mp found role inside)
        | some other =>
            obtain ⟨name', placed⟩ := mem_values.mp (List.mem_of_find?_eq_some found)
            have one := sound.name_unique answers.placed ⟨answers.placed.held, placed⟩
              answers.called (by simpa using List.find?_some found)
            rw [← one] at placed
            rw [Option.some.inj (answers.placed.role.symm.trans placed)]
      have admitted : role.state = .admitted := by
        simpa [closed] using admitted_or_sealed (reads.roles name role answers.placed.role)
      obtain ⟨request, hash, registry⟩ := answers.request
      simp [check, first, admitted, request, hash, registry]

/-- Any number of steps. -/
abbrev Run (maxEventBytes : Nat) : Mesh → Mesh → Prop :=
  Relation.ReflTransGen (Step maxEventBytes)

theorem Commits.step (commits : Commits authority maxEventBytes input birth plan mesh next)
    : Step maxEventBytes mesh next := by
  obtain ⟨issued, committed⟩ := commits.committed
  exact .births commits.checked commits.planned committed

/-- A retry after any run gets the role that the first attempt selected, or is refused because
the pair was sealed.
-/
theorem Commits.retry {first again : Input} {birth' : Birth} {later : Mesh}
    (commits : Commits authority maxEventBytes first birth plan mesh next) (sound : Sound mesh)
    (run : Run maxEventBytes next later) (same : SameRequest first again)
    (checked : validate authority maxEventBytes again = .ok birth')
    : ∃ row, later.rows.get? birth.address.admissionKey = some row
      ∧ prepare authority maxEventBytes birth' later
        = if row.value.sealed then
            refuse .occupied "Slot generation is sealed or belongs to another claim epoch/root/topic"
          else .ok { role := plan.role, reused := true, put := none } := by
  obtain ⟨sound, -⟩ := commits.step.sound sound
  obtain ⟨sound, extended⟩ := sound_of_run sound run
  obtain ⟨admitted, row, name, answers⟩ := commits.answers
  obtain ⟨row', state, answers⟩ := answers.later extended
  obtain rfl := validate_same same commits.checked checked
  have answers' : Answers authority { birth with
      actorId := again.actorId
      spec := normalizedMembers again.spec } later { plan.role with state } row' name :=
    ⟨answers.placed, ⟨answers.epoch.1, answers.epoch.2, answers.epoch.3, answers.epoch.4,
      answers.epoch.5⟩, answers.called, answers.request⟩
  refine ⟨row', answers.placed.held, (answers'.prepare sound).trans ?_⟩
  cases closed : row'.value.sealed with
  | true => rfl
  | false =>
      have reads := sound.reads _ _ answers.placed.held
      have unmoved := admitted_or_sealed (reads.roles name _ answers.placed.role)
      rw [closed] at unmoved
      have same : state = plan.role.state := by
        rw [admitted]
        simpa using unmoved
      rw [same]

/-- Actors and root-scoped requests have one role each, and only a sealed pair has a role that is
not admitted.
-/
structure Unambiguous (mesh : Mesh) : Prop where
  actors : ∀ key row name role key' row' name' role', Placed mesh key row name role →
    Placed mesh key' row' name' role' → role.actorId = role'.actorId → key = key' ∧ name = name'
  requests : ∀ key row name role key' row' name' role', Placed mesh key row name role →
    Placed mesh key' row' name' role' → row.value.rootId = row'.value.rootId →
    role.requestKey = role'.requestKey → key = key' ∧ name = name'
  terminal : ∀ key row name role, Placed mesh key row name role → role.state ≠ .admitted →
    row.value.sealed = true

/-- The ledger is a permanent record of births: in every reachable mesh it is unambiguous, every
later ledger extends it, a plan on an unchanged view is the transaction's own, and a retry of a
committed admission returns the role it selected until the pair is sealed.
-/
theorem births_are_permanent {maxEventBytes : Nat} {mesh : Mesh}
    (reachable : Reachable maxEventBytes mesh)
    : Unambiguous mesh
      ∧ (∀ later, Run maxEventBytes mesh later → mesh.Extends later)
      ∧ (∀ authority early birth plan, early.claims birth.address.key
            = mesh.claims birth.address.key → early.rows = mesh.rows →
          prepare authority maxEventBytes birth early = .ok plan →
          prepare authority maxEventBytes birth mesh = .ok (plan.rebased mesh))
      ∧ ∀ authority first again birth birth' plan next later,
          Commits authority maxEventBytes first birth plan mesh next →
          Run maxEventBytes next later → SameRequest first again →
          validate authority maxEventBytes again = .ok birth' →
          ∃ row, later.rows.get? birth.address.admissionKey = some row
            ∧ prepare authority maxEventBytes birth' later
              = if row.value.sealed then
                  refuse .occupied
                    "Slot generation is sealed or belongs to another claim epoch/root/topic"
                else .ok { role := plan.role, reused := true, put := none } := by
  have sound := reachable.sound
  refine ⟨⟨sound.actors, sound.requests, ?_⟩, ?_, ?_, ?_⟩
  · intro key row name role placed moved
    have reads := sound.reads key row placed.held
    exact (admitted_or_sealed (reads.roles name role placed.role)).resolve_left moved
  · exact fun later run => (sound_of_run sound run).2
  · exact fun authority early birth plan claim ledger => prepare_rebased sound claim ledger
  · intro authority first again birth birth' plan next later commits run same checked
    exact commits.retry sound run same checked

/-- Every retry of a committed admission returns the role that it selected. -/
def RetriesReturn (maxEventBytes : Nat) : Prop :=
  ∀ authority first again birth birth' plan mesh next later,
    Reachable maxEventBytes mesh →
    Commits authority maxEventBytes first birth plan mesh next →
    Run maxEventBytes next later → SameRequest first again →
    validate authority maxEventBytes again = .ok birth' →
    prepare authority maxEventBytes birth' later
      = .ok { role := plan.role, reused := true, put := none }

def exampleAuthority : Authority where
  generation := lit "g1"
  registryRoots := [lit "/registry"]
  rootIds := [lit "root"]
  hubRootId := lit "hub"
  routes := [{ repository := lit "acme/app", topic := lit "reviews", maxSlot := 1
               denominators := none }]
  registriesNamed := by decide
  rootsNamed := by decide
  topicsNamed := by decide

def exampleKey : JsString :=
  lit "factory/review-slots/v1/acme/app/1/base"

def exampleClaim : Entry Json where
  value := .object [(lit "version", .number (.int 1)), (lit "repository", .string (lit "acme/app")),
    (lit "slot", .number (.int 1)), (lit "generation", .string (lit "base")),
    (lit "owner", .string (lit "o")), (lit "hubRootId", .string (lit "hub")),
    (lit "names", .array [.string (lit "a-review-astra"), .string (lit "a-security-astra")]),
    (lit "claimedBy", .string (lit "root"))]
  version := 5
  updatedBy := { kind := lit "main", id := lit "root" }

def exampleInput (name : String) : Input where
  actorId := lit name
  request := [(lit "name", .string (lit name)), (lit "topics", .array [.string (lit "reviews")]),
    (lit "slotClaim", .object [(lit "key", .string exampleKey),
      (lit "ifVersion", .number (.int 5))]),
    (lit "idempotencyKey", .string (lit name))]
  spec := [(lit "id", .string (lit name)), (lit "name", .string (lit name)),
    (lit "instructions", .string (lit "x")), (lit "topics", .array [.string (lit "reviews")]),
    (lit "rootId", .string (lit "root"))]
  registryRoot := lit "/registry"
  caller := { kind := lit "main", id := lit "root" }

def exampleMesh : Mesh where
  claims := fun key => if key = exampleKey then some exampleClaim else none
  rows := JsMap.empty
  version := fun _ => 0

def admitted? (input : Input) (issued : Nat) (mesh : Mesh) : Option (Birth × Plan × Mesh) :=
  match validate exampleAuthority 4096 input with
  | .error _ => none
  | .ok birth =>
      match prepare exampleAuthority 4096 birth mesh with
      | .error _ => none
      | .ok plan => (mesh.commit input.caller issued plan.put).map fun next => (birth, plan, next)

theorem admitted?_some {issued : Nat} (h : admitted? input issued mesh = some (birth, plan, next))
    : Commits exampleAuthority 4096 input birth plan mesh next := by
  unfold admitted? at h
  split at h
  · exact absurd h (by simp)
  next checked =>
  split at h
  · exact absurd h (by simp)
  next planned =>
  obtain ⟨only, committed, same⟩ := Option.map_eq_some_iff.mp h
  obtain ⟨rfl, rfl, rfl⟩ := same
  exact ⟨checked, planned, issued, committed⟩

def revoked? (mesh : Mesh) : Option Mesh :=
  match transition exampleAuthority (lit "a-review-astra") (lit "/registry") [lit "reviews"]
      .revoking mesh with
  | .error _ => none
  | .ok put => mesh.commit { kind := lit "main", id := lit "hub" } 8 put

theorem revoked?_some (h : revoked? mesh = some next) : Step 4096 mesh next := by
  unfold revoked? at h
  split at h
  · exact absurd h (by simp)
  next planned => exact .remove (.inl rfl) planned h

/-- Both actors are admitted, and the removal of the review actor begins. -/
def exampleRun? : Option (Mesh × Birth × Plan × Mesh × Mesh) := do
  let first ← admitted? (exampleInput "a-review-astra") 6 exampleMesh
  let second ← admitted? (exampleInput "a-security-astra") 7 first.2.2
  let later ← revoked? second.2.2
  some (first.2.2, second.1, second.2.1, second.2.2, later)

theorem exampleRun?_some {later : Mesh} (h : exampleRun? = some (mesh, birth, plan, next, later))
    : Reachable 4096 mesh
      ∧ Commits exampleAuthority 4096 (exampleInput "a-security-astra") birth plan mesh next
      ∧ Run 4096 next later := by
  simp only [exampleRun?, Option.bind_eq_bind, Option.bind_eq_some_iff, Option.some.injEq,
    Prod.mk.injEq] at h
  obtain ⟨first, reviewed, second, secured, last, revoked, rfl, rfl, rfl, rfl, rfl⟩ := h
  refine ⟨⟨_, _, .single (admitted?_some reviewed).step⟩, admitted?_some secured, ?_⟩
  exact .single (revoked?_some revoked)

/-- Whether the security actor is refused when it is asked for once more. -/
def refusesAgain (meshes : Mesh × Birth × Plan × Mesh × Mesh) : Bool :=
  match prepare exampleAuthority 4096 meshes.2.1 meshes.2.2.2.2 with
  | .error refusal => refusal.reason = .occupied
  | .ok _ => false

theorem exampleRun?_refusesAgain : exampleRun?.any refusesAgain = true := by
  decide +kernel

/-- The security actor is still admitted, and the exact retry of its request is refused. -/
theorem sealed_pair_refuses_retry : ¬RetriesReturn 4096 := by
  intro returns
  obtain ⟨⟨mesh, birth, plan, next, later⟩, found, refused⟩ :=
    (Option.any_eq_true ..).mp exampleRun?_refusesAgain
  obtain ⟨reachable, commits, run⟩ := exampleRun?_some found
  have answer := returns _ _ _ _ _ _ _ _ _ reachable commits run ⟨rfl, rfl, rfl, rfl⟩
    commits.checked
  simp [refusesAgain, answer] at refused

/-- Two admissions and a removal leave an unambiguous ledger. -/
theorem births_are_permanent_pair
    : ∃ mesh birth plan next later, exampleRun? = some (mesh, birth, plan, next, later)
      ∧ Unambiguous later := by
  obtain ⟨⟨mesh, birth, plan, next, later⟩, found, -⟩ :=
    (Option.any_eq_true ..).mp exampleRun?_refusesAgain
  obtain ⟨⟨claims, version, before⟩, commits, run⟩ := exampleRun?_some found
  have reachable : Reachable 4096 later := ⟨claims, version, (before.tail commits.step).trans run⟩
  exact ⟨mesh, birth, plan, next, later, found, (births_are_permanent reachable).1⟩

end PiFabric.Slots
