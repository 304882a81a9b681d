import PiFabric.Grants.File

/-! Runs of grant calls by any processes on one mesh root. A call reads the wall clock when it is
made and enters its section later; what a grant authorizes is bounded, up to the time between.
-/

namespace PiFabric.Grants

open JsString

variable {ι : Type}

/-- A call that waits for the lock, with the time it was made at. -/
inductive Pending where
  | create (record : MeshGrantRecord)
  | revoke (grantId : JsString)
  | post (input : PostInput)

inductive Phase where
  | idle
  | waiting (now : Int) (call : Pending)
  | over

/-- The clock, the file, the events, and the calls; besides, the grants that were written, the ids
that were named, and those whose revocation has resolved.
-/
structure System (ι : Type) where
  clock : Int
  file : File
  events : List MeshEvent
  calls : ι → Phase
  minted : List MeshGrantRecord
  named : List JsString
  revoked : List JsString

def start (clock : Int) : System ι where
  clock
  file := none
  events := []
  calls := fun _ => .idle
  minted := []
  named := []
  revoked := []

inductive Action (ι : Type) where
  | pass (elapsed : Nat)
  | create (call : ι) (storeMaxEventBytes : Int) (grantId token : JsString) (input : CreateInput)
  | revoke (call : ι) (grantId : JsString)
  | post (call : ι) (input : PostInput)
  | enter (call : ι) (choice : Choice)

section
variable [DecidableEq ι]

/-- A call that has been made waits, unless its checks throw. -/
def System.made (s : System ι) (call : ι) (checked : Except Failure Pending) : System ι :=
  let phase :=
    match checked with
    | .ok pending => .waiting s.clock pending
    | .error _ => .over
  { s with calls := Function.update s.calls call phase }

/-- The revoked ids, with one whose revocation resolves. -/
def revokedBy (grantId : JsString) (revoked : List JsString) (outcome : Except Failure Bool)
    : List JsString :=
  match outcome with
  | .ok _ => grantId :: revoked
  | .error _ => revoked

def System.enter (s : System ι) (call : ι) (now : Int) (choice : Choice)
    : Pending → Option (System ι)
  | .create record =>
      -- A random id that nobody has named.
      if s.named.contains record.grantId then none
      else
        let result := createSection now record choice s.file
        some { s with
          file := result.file
          calls := Function.update s.calls call .over
          minted := s.minted ++ [record]
          named := record.grantId :: s.named }
  | .revoke grantId =>
      let result := revokeSection now grantId choice s.file
      some { s with
        file := result.file
        calls := Function.update s.calls call .over
        named := grantId :: s.named
        revoked := revokedBy grantId s.revoked result.outcome }
  | .post input =>
      let result := postSection s.clock now input choice s.file
      some { s with
        file := result.file
        calls := Function.update s.calls call .over
        events := s.events ++ result.appended.toList }

/-- What an action leaves, if it is possible. -/
def System.act (s : System ι) : Action ι → Option (System ι)
  | .pass elapsed => some { s with clock := s.clock + elapsed }
  | .create call storeMaxEventBytes grantId token input =>
      some (s.made call
        ((createRecord storeMaxEventBytes s.clock grantId token input).map .create))
  | .revoke call grantId =>
      some (s.made call
        ((require (isGrantId grantId) (.invalidGrantId grantId)).map fun _ => .revoke grantId))
  | .post call input => some (s.made call ((checkPost input).map fun _ => .post input))
  | .enter call choice =>
      match s.calls call with
      | .waiting now pending => s.enter call now choice pending
      | _ => none

/-- One step, by an action that a condition admits. -/
def Step (allowed : System ι → Action ι → Prop) (s s' : System ι) : Prop :=
  ∃ action, allowed s action ∧ s.act action = some s'

abbrev Run (allowed : System ι → Action ι → Prop) : System ι → System ι → Prop :=
  Relation.ReflTransGen (Step allowed)

end

/-- A post that was made before its grant expired enters its section before that, too. -/
def Prompt (s : System ι) : Action ι → Prop
  | .enter call _ => ∀ now input, s.calls call = .waiting now (.post input) →
      ∀ grant, findGrant (hashToken input.token) (s.file.getD []) = some grant →
        now < grant.expiresAt → s.clock < grant.expiresAt
  | _ => True

def isPrompt (s : System ι) : Action ι → Bool
  | .enter call _ =>
      match s.calls call with
      | .waiting now (.post input) =>
          (findGrant (hashToken input.token) (s.file.getD [])).all fun grant =>
            grant.expiresAt ≤ now || s.clock < grant.expiresAt
      | _ => true
  | _ => true

theorem prompt_of_isPrompt (s : System ι) (action : Action ι) (h : isPrompt s action = true)
    : Prompt s action := by
  cases action with
  | enter call choice =>
      intro now input waits grant found unexpired
      simp only [isPrompt, waits, found, Option.all_some, Bool.or_eq_true,
        decide_eq_true_eq] at h
      omega
  | _ => trivial

section
variable {file : File} {grants : List MeshGrantRecord} {choice : Choice} {now : Int}

theorem readGrants_ok {fails : Option JsString} (h : readGrants fails file = .ok grants)
    : grants = file.getD [] := by
  unfold readGrants at h
  split at h
  · cases h
  · exact (Except.ok.inj h).symm
  · obtain ⟨⟨⟩, -, h⟩ := Outcome.bind_eq_ok.mp h
    obtain ⟨⟨⟩, -, h⟩ := Outcome.bind_eq_ok.mp h
    exact (Except.ok.inj h).symm

theorem require_ok {condition : Bool} {failure : Failure} (h : require condition failure = .ok ())
    : condition = true := by
  unfold require at h
  split at h
  · next holds => exact holds
  · cases h

/-- A write leaves the file as it was, or the grants it was given; the latter if it returns. -/
theorem writeGrants_cases {fate : Fate}
    : (writeGrants fate grants file).1 = file
        ∧ (writeGrants fate grants file).2 ≠ .ok ()
      ∨ (writeGrants fate grants file).1 = some grants := by
  unfold writeGrants
  split
  · exact .inl ⟨rfl, by simp⟩
  · cases fate with
    | done => exact .inr rfl
    | fails took message =>
        cases took with
        | false => exact .inl ⟨rfl, by simp [Fate.outcome]⟩
        | true => exact .inr rfl

/-- A mint leaves the file as it was, or the unexpired grants with the new one. -/
theorem createSection_cases {record : MeshGrantRecord}
    : (createSection now record choice file).file = file
      ∨ (createSection now record choice file).file
          = some (((file.getD []).filter fun grant => now < grant.expiresAt) ++ [record])
        ∧ ((file.getD []).filter fun grant => now < grant.expiresAt).length
          < maxActiveGrants := by
  unfold createSection
  cases read : readGrants choice.read file with
  | error failure => exact .inl rfl
  | ok grants =>
      obtain rfl := readGrants_ok read
      simp only
      split
      · exact .inl rfl
      · next room =>
          rcases @writeGrants_cases file (((file.getD []).filter fun grant =>
            now < grant.expiresAt) ++ [record]) choice.write with ⟨same, -⟩ | written
          · exact .inl same
          · exact .inr ⟨written, by omega⟩

/-- A revocation leaves the file as it was, or the other unexpired grants; once it returns the file
does not hold the grant.
-/
theorem revokeSection_cases {grantId : JsString}
    : ((revokeSection now grantId choice file).file = file
        ∧ ((∃ revoked, (revokeSection now grantId choice file).outcome = .ok revoked) →
          ∀ grant ∈ file.getD [], grant.grantId ≠ grantId))
      ∨ (revokeSection now grantId choice file).file = some ((file.getD []).filter fun grant =>
          grant.grantId ≠ grantId && now < grant.expiresAt) := by
  unfold revokeSection
  cases read : readGrants choice.read file with
  | error failure => exact .inl ⟨rfl, by simp⟩
  | ok grants =>
      obtain rfl := readGrants_ok read
      simp only
      split
      · rcases @writeGrants_cases file ((file.getD []).filter fun grant =>
          grant.grantId ≠ grantId && now < grant.expiresAt) choice.write with
            ⟨same, threw⟩ | written
        · refine .inl ⟨same, ?_⟩
          rintro ⟨revoked, returned⟩
          obtain ⟨⟨⟩, ok, -⟩ := Outcome.map_eq_ok.mp returned
          exact absurd ok threw
        · exact .inr written
      · next whole =>
          refine .inl ⟨rfl, fun _ grant member => ?_⟩
          have all := List.length_filter_eq_length_iff.mp (not_not.mp whole) grant member
          simp only [Bool.and_eq_true, decide_eq_true_eq] at all
          exact all.1

/-- What authorizes a post: the first grant of its token, unexpired when the call was made, with a
use left, and of the kind that is asked for.
-/
structure Authorizes (now : Int) (input : PostInput) (grants : List MeshGrantRecord)
    (grant : MeshGrantRecord) : Prop where
  found : findGrant (hashToken input.token) grants = some grant
  unexpired : now < grant.expiresAt
  left : 0 < grant.uses
  kind : ∀ covered, grant.kind = some covered → ∀ kind, input.kind = some kind → kind = covered

theorem authorize_ok {input : PostInput} {grant : MeshGrantRecord}
    (h : authorize now input grants = .ok grant)
    : Authorizes now input grants grant := by
  unfold authorize at h
  split at h
  · cases h
  · next found first =>
      obtain ⟨⟨⟩, -, h⟩ := Outcome.bind_eq_ok.mp h
      obtain ⟨⟨⟩, unexpired, h⟩ := Outcome.bind_eq_ok.mp h
      obtain ⟨⟨⟩, left, h⟩ := Outcome.bind_eq_ok.mp h
      obtain ⟨⟨⟩, -, h⟩ := Outcome.bind_eq_ok.mp h
      obtain ⟨⟨⟩, kind, h⟩ := Outcome.bind_eq_ok.mp h
      cases h
      refine ⟨first, by simpa using require_ok unexpired, by simpa using require_ok left, ?_⟩
      intro covered isCovered asked isAsked
      simpa [isCovered, isAsked] using require_ok kind

def debited (input : PostInput) (eventId : JsString) (grant : MeshGrantRecord)
    (grants : List MeshGrantRecord) : File :=
  some (replaceGrant (hashToken input.token)
    { grant with uses := grant.uses - 1, lastEventId := some eventId } grants)

/-- A post changes nothing, or it debits the grant that authorizes it; only then it may append. -/
theorem postSection_cases {clock : Int} {input : PostInput}
    : ((postSection clock now input choice file).file = file
        ∧ (postSection clock now input choice file).appended = none)
      ∨ ∃ grant, Authorizes now input (file.getD []) grant
        ∧ (postSection clock now input choice file).file
          = debited input choice.eventId grant (file.getD [])
        ∧ ∀ event, (postSection clock now input choice file).appended = some event →
          event = externalEvent grant input choice.eventId clock := by
  unfold postSection
  cases read : readGrants choice.read file with
  | error failure => exact .inl ⟨rfl, rfl⟩
  | ok grants =>
      obtain rfl := readGrants_ok read
      simp only
      cases allowed : authorize now input (file.getD []) with
      | error failure => exact .inl ⟨rfl, rfl⟩
      | ok grant =>
          have authorizes := authorize_ok allowed
          simp only
          rcases @writeGrants_cases file (replaceGrant (hashToken input.token) { grant with
            uses := grant.uses - 1, lastEventId := some choice.eventId } (file.getD []))
            choice.write with ⟨same, threw⟩ | written
          · split
            · exact .inl ⟨same, rfl⟩
            · next ok => exact absurd ok threw
          · refine .inr ⟨grant, authorizes, ?_, ?_⟩
            · split <;> exact written
            · intro event appended
              split at appended
              · cases appended
              · split at appended
                · exact (Option.some.inj appended).symm
                · cases appended

/-- Where the debited grant stands. -/
theorem replaceGrant_eq {presented : JsString} {grant : MeshGrantRecord}
    (h : findGrant presented grants = some grant)
    : ∃ before after, grants = before ++ grant :: after
        ∧ ∀ updated, replaceGrant presented updated grants = before ++ updated :: after := by
  induction grants with
  | nil => cases h
  | cons first rest ih =>
      unfold findGrant at h
      by_cases same : first.hash = presented
      · rw [List.find?_cons_of_pos (by simpa using same)] at h
        cases h
        exact ⟨[], rest, rfl, fun updated => if_pos same⟩
      · rw [List.find?_cons_of_neg (by simpa using same)] at h
        obtain ⟨before, after, rfl, replaced⟩ := ih h
        refine ⟨first :: before, after, rfl, fun updated => ?_⟩
        rw [replaceGrant, if_neg same, replaced]
        rfl

end

namespace System

def records (s : System ι) : List MeshGrantRecord :=
  s.file.getD []

def eventsOf (s : System ι) (grantId : JsString) : List MeshEvent :=
  s.events.filter fun event => event.grantId = grantId

end System

structure SameGrant (minted record : MeshGrantRecord) : Prop where
  grantId : minted.grantId = record.grantId
  topic : minted.topic = record.topic
  kind : minted.kind = record.kind
  expiresAt : minted.expiresAt = record.expiresAt
  maxUses : minted.maxUses = record.maxUses

structure Allows (grant : MeshGrantRecord) (event : MeshEvent) : Prop where
  grantId : event.grantId = grant.grantId
  topic : event.topic = grant.topic
  kind : ∀ covered, grant.kind = some covered → event.kind = covered
  unexpired : event.createdAt < grant.expiresAt

/-- A record of the file: what it has left, and what was used, are what it was minted with. -/
structure Budgeted (s : System ι) (record : MeshGrantRecord) : Prop where
  minted : ∃ grant ∈ s.minted, SameGrant grant record
  left : 0 ≤ record.uses
  budget : ((s.eventsOf record.grantId).length : Int) + record.uses ≤ record.maxUses
  standing : record.grantId ∉ s.revoked

structure Inv (s : System ι) : Prop where
  ids : (s.minted.map (·.grantId)).Nodup
  named : ∀ grant ∈ s.minted, grant.grantId ∈ s.named
  revoked : ∀ grantId ∈ s.revoked, grantId ∈ s.named
  single : (s.records.map (·.grantId)).Nodup
  budgeted : ∀ record ∈ s.records, Budgeted s record
  few : s.records.length ≤ maxActiveGrants
  allowed : ∀ event ∈ s.events, ∃ grant ∈ s.minted, Allows grant event
  within : ∀ grant ∈ s.minted, ((s.eventsOf grant.grantId).length : Int) ≤ grant.maxUses
  fresh : ∀ call now record, s.calls call = .waiting now (.create record) →
    0 ≤ record.uses ∧ record.uses = record.maxUses

theorem inv_start (clock : Int) : Inv (start clock : System ι) where
  ids := List.nodup_nil
  named := by simp [start]
  revoked := by simp [start]
  single := by simp [start, System.records]
  budgeted := by simp [start, System.records]
  few := by simp [start, System.records]
  allowed := by simp [start]
  within := by simp [start]
  fresh := by simp [start]

/-- How a step changes what the grants may do: no record gets more uses, none comes back, and a
revoked grant gets no event.
-/
structure Narrows (s s' : System ι) : Prop where
  named : ∀ grantId ∈ s.named, grantId ∈ s'.named
  revoked : ∀ grantId ∈ s.revoked, grantId ∈ s'.revoked
  uses : ∀ record' ∈ s'.records, record'.grantId ∈ s.named →
    ∃ record ∈ s.records, record.grantId = record'.grantId ∧ record'.uses ≤ record.uses
  silent : ∀ grantId ∈ s.revoked, s'.eventsOf grantId = s.eventsOf grantId

theorem Narrows.refl (s : System ι) : Narrows s s :=
  ⟨fun _ => id, fun _ => id, fun record member _ => ⟨record, member, rfl, le_refl _⟩,
    fun _ _ => rfl⟩

theorem Narrows.trans {s s' s'' : System ι} (hf : Narrows s s') (hs : Narrows s' s'')
    : Narrows s s'' where
  named := fun grantId known => hs.named grantId (hf.named grantId known)
  revoked := fun grantId known => hs.revoked grantId (hf.revoked grantId known)
  uses := by
    intro last member known
    obtain ⟨middle, inside, sameMiddle, lowerLast⟩ := hs.uses last member (hf.named _ known)
    obtain ⟨first, listed, sameFirst, lowerMiddle⟩ :=
      hf.uses middle inside (sameMiddle ▸ known)
    exact ⟨first, listed, sameFirst.trans sameMiddle, lowerLast.trans lowerMiddle⟩
  silent := fun grantId known =>
    (hs.silent grantId (hf.revoked grantId known)).trans (hf.silent grantId known)

variable {s s' : System ι}

theorem Inv.waits (h : Inv s) {clock : Int} {calls : ι → Phase}
    (fresh : ∀ call now record, calls call = .waiting now (.create record) →
      0 ≤ record.uses ∧ record.uses = record.maxUses)
    : Inv { s with clock, calls } :=
  { h with
    budgeted := fun record member =>
      { minted := (h.budgeted record member).minted
        left := (h.budgeted record member).left
        budget := (h.budgeted record member).budget
        standing := (h.budgeted record member).standing }
    fresh }

/-- Some of the records stay, and a revocation may have resolved. -/
theorem Inv.keeps (h : Inv s) {file : File} (kept : (file.getD []).Sublist s.records)
    {named revoked : List JsString} (knows : ∀ grantId ∈ s.named, grantId ∈ named)
    (gone : ∀ record ∈ file.getD [], record.grantId ∉ revoked)
    (inside : ∀ grantId ∈ revoked, grantId ∈ named)
    : Inv { s with file, named, revoked } where
  ids := h.ids
  named := fun grant member => knows _ (h.named grant member)
  revoked := inside
  single := h.single.sublist (kept.map _)
  budgeted := fun record member =>
    { minted := (h.budgeted record (kept.subset member)).minted
      left := (h.budgeted record (kept.subset member)).left
      budget := (h.budgeted record (kept.subset member)).budget
      standing := gone record member }
  few := kept.length_le.trans h.few
  allowed := h.allowed
  within := h.within
  fresh := h.fresh

theorem eventsOf_unnamed (h : Inv s) {grantId : JsString} (unnamed : grantId ∉ s.named)
    : s.eventsOf grantId = [] := by
  refine List.filter_eq_nil_iff.mpr fun event member same => unnamed ?_
  obtain ⟨grant, minted, allows⟩ := h.allowed event member
  have isId : event.grantId = grantId := by simpa using same
  exact isId ▸ allows.grantId ▸ h.named grant minted

/-- A grant that nobody has named is minted, before the file holds it. -/
theorem Inv.mints (h : Inv s) {record : MeshGrantRecord} (unnamed : record.grantId ∉ s.named)
    (uses : 0 ≤ record.uses) (unused : record.uses = record.maxUses)
    : Inv { s with minted := s.minted ++ [record], named := record.grantId :: s.named } where
  ids := by
    rw [List.map_append, List.nodup_append]
    refine ⟨h.ids, by simp, ?_⟩
    rintro grantId member _ listed rfl
    obtain ⟨grant, minted, rfl⟩ := List.mem_map.mp member
    have same : grant.grantId = record.grantId := by simpa using listed
    exact unnamed (same ▸ h.named grant minted)
  named := by
    intro grant member
    rcases List.mem_append.mp member with before | new
    · exact List.mem_cons_of_mem _ (h.named grant before)
    · exact List.mem_singleton.mp new ▸ List.mem_cons_self
  revoked := fun grantId known => List.mem_cons_of_mem _ (h.revoked grantId known)
  single := h.single
  budgeted := by
    intro held member
    obtain ⟨⟨grant, minted, same⟩, left, budget, standing⟩ := h.budgeted held member
    exact ⟨⟨grant, List.mem_append_left _ minted, same⟩, left, budget, standing⟩
  few := h.few
  allowed := by
    intro event member
    obtain ⟨grant, minted, allows⟩ := h.allowed event member
    exact ⟨grant, List.mem_append_left _ minted, allows⟩
  within := by
    intro grant member
    rcases List.mem_append.mp member with before | new
    · exact h.within grant before
    · obtain rfl := List.mem_singleton.mp new
      have none_ := eventsOf_unnamed h unnamed
      change ((s.eventsOf _).length : Int) ≤ _
      rw [none_, ← unused]
      exact uses
  fresh := h.fresh

theorem Inv.adds (h : Inv s) {record : MeshGrantRecord} {kept : List MeshGrantRecord}
    (inside : kept.Sublist s.records) (room : kept.length < maxActiveGrants)
    (minted : record ∈ s.minted) (uses : 0 ≤ record.uses) (unused : record.uses = record.maxUses)
    (silent : s.eventsOf record.grantId = []) (standing : record.grantId ∉ s.revoked)
    (new : ∀ held ∈ s.records, held.grantId ≠ record.grantId)
    : Inv { s with file := some (kept ++ [record]) } where
  ids := h.ids
  named := h.named
  revoked := h.revoked
  single := by
    change ((kept ++ [record]).map (·.grantId)).Nodup
    rw [List.map_append, List.nodup_append]
    refine ⟨h.single.sublist (inside.map _), by simp, ?_⟩
    rintro grantId member _ listed rfl
    obtain ⟨held, isKept, rfl⟩ := List.mem_map.mp member
    exact new held (inside.subset isKept) (by simpa using listed)
  budgeted := by
    intro held member
    rcases List.mem_append.mp member with before | last
    · obtain ⟨origin, left, budget, stands⟩ := h.budgeted held (inside.subset before)
      exact ⟨origin, left, budget, stands⟩
    · obtain rfl := List.mem_singleton.mp last
      refine ⟨⟨held, minted, rfl, rfl, rfl, rfl, rfl⟩, uses, ?_, standing⟩
      change ((s.eventsOf _).length : Int) + _ ≤ _
      rw [silent, unused]
      simp
  few := by
    change (kept ++ [record]).length ≤ maxActiveGrants
    rw [List.length_append, List.length_singleton]
    exact room
  allowed := h.allowed
  within := h.within
  fresh := h.fresh

/-- The file never holds a grant that nobody has named. -/
theorem Inv.named_of_held (h : Inv s) {record : MeshGrantRecord} (member : record ∈ s.records)
    : record.grantId ∈ s.named := by
  obtain ⟨grant, minted, same⟩ := (h.budgeted record member).minted
  exact same.grantId ▸ h.named grant minted

theorem inv_createSection (h : Inv s) {record : MeshGrantRecord} {now : Int} {choice : Choice}
    (unnamed : record.grantId ∉ s.named) (uses : 0 ≤ record.uses)
    (unused : record.uses = record.maxUses)
    : Inv { s with
        file := (createSection now record choice s.file).file
        minted := s.minted ++ [record]
        named := record.grantId :: s.named } := by
  have minted := h.mints unnamed uses unused
  rcases @createSection_cases s.file choice now record with same | ⟨added, room⟩
  · rw [same]
    exact minted
  · rw [added]
    refine minted.adds List.filter_sublist room (List.mem_append_right _ List.mem_cons_self) uses
      unused (eventsOf_unnamed h unnamed) (fun known => unnamed (h.revoked _ known)) ?_
    rintro held member same
    exact unnamed (same ▸ h.named_of_held member)

theorem narrows_createSection {record : MeshGrantRecord} {now : Int} {choice : Choice}
    {calls : ι → Phase} (unnamed : record.grantId ∉ s.named)
    : Narrows s { s with
        file := (createSection now record choice s.file).file
        calls
        minted := s.minted ++ [record]
        named := record.grantId :: s.named } where
  named := fun _ known => List.mem_cons_of_mem _ known
  revoked := fun _ => id
  uses := by
    intro held member known
    change held ∈ (createSection now record choice s.file).file.getD [] at member
    rcases @createSection_cases s.file choice now record with same | ⟨added, -⟩
    · rw [same] at member
      exact ⟨held, member, rfl, le_refl _⟩
    · rw [added] at member
      rcases List.mem_append.mp member with kept | new
      · exact ⟨held, (List.mem_filter.mp kept).1, rfl, le_refl _⟩
      · exact absurd (List.mem_singleton.mp new ▸ known) unnamed
  silent := fun _ _ => rfl

theorem mem_revokedBy {grantId other : JsString} {revoked : List JsString}
    {outcome : Except Failure Bool} (h : other ∈ revokedBy grantId revoked outcome)
    : other ∈ revoked ∨ other = grantId ∧ ∃ found, outcome = .ok found := by
  cases outcome with
  | error failure => exact .inl h
  | ok found =>
      rcases List.mem_cons.mp h with rfl | before
      · exact .inr ⟨rfl, found, rfl⟩
      · exact .inl before

theorem inv_revokeSection (h : Inv s) {grantId : JsString} {now : Int} {choice : Choice}
    : Inv { s with
        file := (revokeSection now grantId choice s.file).file
        named := grantId :: s.named
        revoked := revokedBy grantId s.revoked
          (revokeSection now grantId choice s.file).outcome } := by
  have inside : ∀ other ∈ revokedBy grantId s.revoked
      (revokeSection now grantId choice s.file).outcome, other ∈ grantId :: s.named := by
    intro other known
    rcases mem_revokedBy known with before | ⟨rfl, -⟩
    · exact List.mem_cons_of_mem _ (h.revoked other before)
    · exact List.mem_cons_self
  rcases @revokeSection_cases s.file choice now grantId with ⟨same, gone⟩ | kept
  · rw [same]
    refine h.keeps (.refl _) (fun other known => List.mem_cons_of_mem _ known) ?_ inside
    intro record member known
    rcases mem_revokedBy known with before | ⟨isRevoked, returned⟩
    · exact (h.budgeted record member).standing before
    · exact gone returned record member isRevoked
  · rw [kept]
    have sublist := @List.filter_sublist _ (fun grant : MeshGrantRecord =>
      decide (grant.grantId ≠ grantId) && decide (now < grant.expiresAt)) s.records
    refine @Inv.keeps _ _ h (some _) sublist _ _ (fun other known => List.mem_cons_of_mem _ known)
      ?_ inside
    intro record member known
    obtain ⟨held, other⟩ := List.mem_filter.mp member
    rcases mem_revokedBy known with before | ⟨isRevoked, -⟩
    · exact (h.budgeted record held).standing before
    · simp [isRevoked] at other

theorem narrows_revokeSection {grantId : JsString} {now : Int} {choice : Choice}
    {calls : ι → Phase}
    : Narrows s { s with
        file := (revokeSection now grantId choice s.file).file
        calls
        named := grantId :: s.named
        revoked := revokedBy grantId s.revoked
          (revokeSection now grantId choice s.file).outcome } where
  named := fun _ known => List.mem_cons_of_mem _ known
  revoked := by
    intro other known
    change other ∈ revokedBy _ _ _
    cases (revokeSection now grantId choice s.file).outcome with
    | error failure => exact known
    | ok found => exact List.mem_cons_of_mem _ known
  uses := by
    intro held member _
    change held ∈ (revokeSection now grantId choice s.file).file.getD [] at member
    rcases @revokeSection_cases s.file choice now grantId with ⟨same, -⟩ | kept
    · rw [same] at member
      exact ⟨held, member, rfl, le_refl _⟩
    · rw [kept] at member
      exact ⟨held, (List.mem_filter.mp member).1, rfl, le_refl _⟩
  silent := fun _ _ => rfl

theorem Inv.debits (h : Inv s) {grant updated : MeshGrantRecord}
    {before after : List MeshGrantRecord} (held : s.records = before ++ grant :: after)
    (same : SameGrant grant updated) (left : 0 < grant.uses) (debit : updated.uses = grant.uses - 1)
    : Inv { s with file := some (before ++ updated :: after) } where
  ids := h.ids
  named := h.named
  revoked := h.revoked
  single := by
    have single := h.single
    rw [held] at single
    simpa [System.records, same.grantId] using single
  budgeted := by
    intro record member
    have member_ : record ∈ before ++ updated :: after := member
    rw [List.mem_append, List.mem_cons] at member_
    have old (inside : record ∈ s.records) : Budgeted { s with
        file := some (before ++ updated :: after) } record := by
      obtain ⟨minted, left, budget, standing⟩ := h.budgeted record inside
      exact ⟨minted, left, budget, standing⟩
    rcases member_ with first | rfl | last
    · exact old (held ▸ List.mem_append_left _ first)
    · obtain ⟨⟨origin, minted, isOrigin⟩, -, budget, standing⟩ :=
        h.budgeted grant (held ▸ List.mem_append_right _ List.mem_cons_self)
      refine ⟨⟨origin, minted, ?_⟩, by omega, ?_, same.grantId ▸ standing⟩
      · exact ⟨isOrigin.grantId.trans same.grantId, isOrigin.topic.trans same.topic,
          isOrigin.kind.trans same.kind, isOrigin.expiresAt.trans same.expiresAt,
          isOrigin.maxUses.trans same.maxUses⟩
      · change ((s.eventsOf record.grantId).length : Int) + _ ≤ _
        rw [← same.grantId, ← same.maxUses]
        omega
    · exact old (held ▸ List.mem_append_right _ (List.mem_cons_of_mem _ last))
  few := by
    have few := h.few
    rw [held] at few
    simpa [System.records] using few
  allowed := h.allowed
  within := h.within
  fresh := h.fresh

theorem eventsOf_append (event : MeshEvent) (grantId : JsString)
    : { s with events := s.events ++ [event] }.eventsOf grantId
      = s.eventsOf grantId ++ if event.grantId = grantId then [event] else [] := by
  unfold System.eventsOf
  rw [List.filter_append]
  congr 1
  by_cases same : event.grantId = grantId <;> simp [same]

/-- An event is appended for a record that has less left than its events leave it. -/
theorem Inv.appends (h : Inv s) {record : MeshGrantRecord} {event : MeshEvent}
    (held : record ∈ s.records)
    (reserved : ((s.eventsOf record.grantId).length : Int) + record.uses + 1 ≤ record.maxUses)
    (isOf : event.grantId = record.grantId) (topic : event.topic = record.topic)
    (kind : ∀ covered, record.kind = some covered → event.kind = covered)
    (unexpired : event.createdAt < record.expiresAt)
    : Inv { s with events := s.events ++ [event] } where
  ids := h.ids
  named := h.named
  revoked := h.revoked
  single := h.single
  budgeted := by
    intro other member
    obtain ⟨minted, left, budget, standing⟩ := h.budgeted other member
    refine ⟨minted, left, ?_, standing⟩
    rw [eventsOf_append, isOf]
    split
    · next same =>
        obtain rfl := List.inj_on_of_nodup_map h.single held member same
        simp only [List.length_append, List.length_singleton, Nat.cast_add, Nat.cast_one]
        omega
    · simpa using budget
  few := h.few
  allowed := by
    intro other member
    rcases List.mem_append.mp member with before | last
    · exact h.allowed other before
    · obtain rfl := List.mem_singleton.mp last
      obtain ⟨origin, minted, same⟩ := (h.budgeted record held).minted
      exact ⟨origin, minted, isOf.trans same.grantId.symm, topic.trans same.topic.symm,
        fun covered isCovered => kind covered (same.kind ▸ isCovered),
        same.expiresAt ▸ unexpired⟩
  within := by
    intro grant minted
    rw [eventsOf_append, isOf]
    split
    · next same =>
        obtain ⟨origin, listed, isOrigin⟩ := (h.budgeted record held).minted
        obtain rfl := List.inj_on_of_nodup_map h.ids listed minted
          (isOrigin.grantId.trans same)
        have left := (h.budgeted record held).left
        rw [← same, isOrigin.maxUses]
        simp only [List.length_append, List.length_singleton, Nat.cast_add, Nat.cast_one]
        omega
    · simpa using h.within grant minted
  fresh := h.fresh

theorem inv_postSection (h : Inv s) {now : Int} {input : PostInput} {choice : Choice}
    (prompt : ∀ grant, findGrant (hashToken input.token) (s.file.getD []) = some grant →
      now < grant.expiresAt → s.clock < grant.expiresAt)
    : Inv { s with
        file := (postSection s.clock now input choice s.file).file
        events := s.events
          ++ (postSection s.clock now input choice s.file).appended.toList } := by
  rcases @postSection_cases s.file choice now s.clock input with
    ⟨same, silent⟩ | ⟨grant, authorizes, debit, appended⟩
  · rw [same, silent]
    simpa using h
  · obtain ⟨before, after, held_, replaced⟩ := replaceGrant_eq authorizes.found
    have held : s.records = before ++ grant :: after := held_
    have sameGrant : SameGrant grant { grant with
        uses := grant.uses - 1, lastEventId := some choice.eventId } :=
      ⟨rfl, rfl, rfl, rfl, rfl⟩
    have debited_ := h.debits held sameGrant authorizes.left rfl
    rw [debit, debited, replaced]
    cases event : (postSection s.clock now input choice s.file).appended with
    | none => simpa using debited_
    | some posted =>
        obtain rfl := appended posted event
        have budget := (h.budgeted grant
          (held ▸ List.mem_append_right _ List.mem_cons_self)).budget
        refine debited_.appends (List.mem_append_right _ List.mem_cons_self) ?_ rfl rfl ?_
          (prompt grant authorizes.found authorizes.unexpired)
        · change ((s.eventsOf grant.grantId).length : Int) + (grant.uses - 1) + 1 ≤ grant.maxUses
          omega
        · intro covered isCovered
          change input.kind.getD (grant.kind.getD (lit "external")) = covered
          cases asked : input.kind with
          | none => simpa using congrArg (·.getD (lit "external")) isCovered
          | some kind => exact authorizes.kind covered isCovered kind asked

theorem narrows_postSection (h : Inv s) {now : Int} {input : PostInput} {choice : Choice}
    {calls : ι → Phase}
    : Narrows s { s with
        file := (postSection s.clock now input choice s.file).file
        calls
        events := s.events
          ++ (postSection s.clock now input choice s.file).appended.toList } := by
  rcases @postSection_cases s.file choice now s.clock input with
    ⟨same, silent⟩ | ⟨grant, authorizes, debit, appended⟩
  · rw [same, silent]
    simp only [Option.toList_none, List.append_nil]
    exact ⟨fun _ => id, fun _ => id, fun held member _ => ⟨held, member, rfl, le_refl _⟩,
      fun _ _ => rfl⟩
  · obtain ⟨before, after, held_, replaced⟩ := replaceGrant_eq authorizes.found
    have held : s.records = before ++ grant :: after := held_
    have listed : grant ∈ s.records := held ▸ List.mem_append_right _ List.mem_cons_self
    refine ⟨fun _ => id, fun _ => id, ?_, ?_⟩
    · intro record member _
      rw [debit, debited, replaced] at member
      have member_ : record ∈ before ++ _ :: after := member
      rw [List.mem_append, List.mem_cons] at member_
      rcases member_ with first | rfl | last
      · exact ⟨record, held ▸ List.mem_append_left _ first, rfl, le_refl _⟩
      · exact ⟨grant, listed, rfl, by simp⟩
      · exact ⟨record, held ▸ List.mem_append_right _ (List.mem_cons_of_mem _ last), rfl,
          le_refl _⟩
    · intro grantId revoked
      cases event : (postSection s.clock now input choice s.file).appended with
      | none => simp [System.eventsOf]
      | some posted =>
          obtain rfl := appended posted event
          have apart : grant.grantId ≠ grantId := by
            rintro rfl
            exact (h.budgeted grant listed).standing revoked
          simp [System.eventsOf, externalEvent, apart]

theorem boundedInteger_ok {value : Option Int} {name : String} {min max result : Int}
    (h : boundedInteger value name min max = .ok result)
    : min ≤ result ∧ result ≤ max := by
  unfold boundedInteger at h
  split at h
  · split at h
    · next bounds =>
        cases h
        exact ⟨bounds.2.1, bounds.2.2⟩
    · cases h
  · cases h

theorem createRecord_ok {storeMaxEventBytes now : Int} {grantId token : JsString}
    {input : CreateInput} {record : MeshGrantRecord}
    (h : createRecord storeMaxEventBytes now grantId token input = .ok record)
    : 0 ≤ record.uses ∧ record.uses = record.maxUses := by
  obtain ⟨ttlMs, -, h⟩ := Outcome.bind_eq_ok.mp h
  obtain ⟨uses, bounded, h⟩ := Outcome.bind_eq_ok.mp h
  obtain ⟨⟨⟩, -, h⟩ := Outcome.bind_eq_ok.mp h
  obtain ⟨⟨⟩, -, h⟩ := Outcome.bind_eq_ok.mp h
  cases h
  have positive := (boundedInteger_ok bounded).1
  exact ⟨by simp only; omega, rfl⟩

section
variable [DecidableEq ι]

/-- A call that was made leaves everything but itself. -/
theorem inv_made (h : Inv s) {call : ι} {checked : Except Failure Pending}
    (fresh : ∀ record, checked = .ok (.create record) →
      0 ≤ record.uses ∧ record.uses = record.maxUses)
    : Inv (s.made call checked) := by
  refine @Inv.waits _ _ h s.clock _ fun other now record waits => ?_
  by_cases same : other = call
  · subst same
    rw [Function.update_self] at waits
    cases checked with
    | error failure => cases waits
    | ok pending =>
        cases waits
        exact fresh record rfl
  · rw [Function.update_of_ne same] at waits
    exact h.fresh other now record waits

theorem Inv.ends (h : Inv s) (call : ι)
    : Inv { s with calls := Function.update s.calls call .over } := by
  refine @Inv.waits _ _ h s.clock _ fun other now record waits => ?_
  by_cases same : other = call
  · subst same
    rw [Function.update_self] at waits
    cases waits
  · rw [Function.update_of_ne same] at waits
    exact h.fresh other now record waits

theorem inv_enter (h : Inv s) {call : ι} {now : Int} {choice : Choice} {pending : Pending}
    (waits : s.calls call = .waiting now pending) (prompt : Prompt s (.enter call choice))
    (entered : s.enter call now choice pending = some s')
    : Inv s' ∧ Narrows s s' := by
  cases pending with
  | create record =>
      simp only [System.enter, List.contains_iff_mem] at entered
      split at entered
      · cases entered
      · next isNew =>
          cases entered
          obtain ⟨uses, unused⟩ := h.fresh call now record waits
          exact ⟨(inv_createSection h isNew uses unused).ends call,
            narrows_createSection isNew⟩
  | revoke grantId =>
      cases entered
      exact ⟨(inv_revokeSection h).ends call, narrows_revokeSection⟩
  | post input =>
      cases entered
      exact ⟨(inv_postSection h fun grant found unexpired =>
        prompt now input waits grant found unexpired).ends call, narrows_postSection h⟩

theorem Inv.step (h : Inv s) (step : Step Prompt s s') : Inv s' ∧ Narrows s s' := by
  obtain ⟨action, prompt, acted⟩ := step
  cases action with
  | pass elapsed =>
      cases acted
      exact ⟨h.waits h.fresh, { Narrows.refl s with }⟩
  | create call storeMaxEventBytes grantId token input =>
      cases acted
      refine ⟨inv_made h fun record made => ?_, { Narrows.refl s with }⟩
      obtain ⟨minted, created, same⟩ := Outcome.map_eq_ok.mp made
      cases same
      exact createRecord_ok created
  | revoke call grantId =>
      cases acted
      refine ⟨inv_made h fun record made => ?_, { Narrows.refl s with }⟩
      obtain ⟨⟨⟩, -, same⟩ := Outcome.map_eq_ok.mp made
      cases same
  | post call input =>
      cases acted
      refine ⟨inv_made h fun record made => ?_, { Narrows.refl s with }⟩
      obtain ⟨⟨⟩, -, same⟩ := Outcome.map_eq_ok.mp made
      cases same
  | enter call choice =>
      simp only [System.act] at acted
      split at acted
      · next now pending waits => exact inv_enter h waits prompt acted
      · cases acted

theorem Inv.run (h : Inv s) (run : Run Prompt s s') : Inv s' ∧ Narrows s s' := by
  induction run with
  | refl => exact ⟨h, .refl s⟩
  | tail _ last ih =>
      obtain ⟨inv, narrows⟩ := ih.1.step last
      exact ⟨inv, ih.2.trans narrows⟩

/-- A grant never authorizes more than it says, in every run in which each post that was made before
its grant expired enters its section before that too. No grant has more events than its uses, each
on its topic and its kind and before it expires; what is left of it is never negative and never
grows; once a revocation has resolved it gets no further event; and at most so many grants exist.
-/
theorem grants_authorize_no_more {clock : Int} (run : Run Prompt (start clock) s)
    : (∀ grant ∈ s.minted, ((s.eventsOf grant.grantId).length : Int) ≤ grant.maxUses)
      ∧ (∀ event ∈ s.events, ∃ grant ∈ s.minted, Allows grant event)
      ∧ (∀ record ∈ s.records, 0 ≤ record.uses)
      ∧ (activeGrants s.clock s.file).length ≤ maxActiveGrants
      ∧ ∀ later, Run Prompt s later →
        (∀ record ∈ s.records, ∀ record' ∈ later.records, record'.grantId = record.grantId →
          record'.uses ≤ record.uses)
        ∧ ∀ grantId ∈ s.revoked, later.eventsOf grantId = s.eventsOf grantId := by
  have inv := ((inv_start clock).run run).1
  refine ⟨inv.within, inv.allowed, fun record member => (inv.budgeted record member).left,
    (List.length_filter_le ..).trans inv.few, fun later further => ?_⟩
  have narrows := (inv.run further).2
  refine ⟨fun record member record' member' same => ?_, narrows.silent⟩
  obtain ⟨held, listed, isHeld, lower⟩ :=
    narrows.uses record' member' (same ▸ inv.named_of_held member)
  obtain rfl := List.inj_on_of_nodup_map inv.single listed member (isHeld.trans same)
  exact lower

/-- The actions in turn, as far as they are admitted. -/
def System.acts (allowed : System ι → Action ι → Bool) : List (Action ι) → System ι
    → Option (System ι)
  | [], s => some s
  | action :: rest, s => if allowed s action then (s.act action).bind (acts allowed rest) else none

theorem run_of_acts {check : System ι → Action ι → Bool} {allowed : System ι → Action ι → Prop}
    {actions : List (Action ι)} (sound : ∀ s action, check s action = true → allowed s action)
    (h : s.acts check actions = some s')
    : Run allowed s s' := by
  induction actions generalizing s with
  | nil =>
      cases h
      exact .refl
  | cons action rest ih =>
      unfold System.acts at h
      split at h
      · next admitted =>
          obtain ⟨next, acted, others⟩ := Option.bind_eq_some_iff.mp h
          exact .head ⟨action, sound s action admitted, acted⟩ (ih others)
      · cases h

def mintOnce : CreateInput where
  topic := lit "hooks"
  ttlMs := some 60000
  createdBy := .object [(lit "id", .string (lit "main"))]

def someToken : JsString :=
  List.replicate 43 0x61

def mintAndPost (waited : Nat) : List (Action Bool) :=
  [.create false 65536 (lit "g-1") someToken mintOnce, .enter false {}, .pass 59999,
    .post true { token := someToken }, .pass waited, .enter true { eventId := lit "e-1" }]

/-- Used up in time, the grant has its one event. -/
theorem grants_authorize_no_more_once
    : ∃ s : System Bool, s.events.length = 1
      ∧ (∀ grant ∈ s.minted, ((s.eventsOf grant.grantId).length : Int) ≤ grant.maxUses)
      ∧ ∀ event ∈ s.events, ∃ grant ∈ s.minted, Allows grant event := by
  have acted : ((start 0).acts isPrompt (mintAndPost 0)).any
      (fun s => s.events.length = 1) = true := by
    decide +kernel
  obtain ⟨s, same, posted⟩ := Option.any_eq_true _ _ |>.mp acted
  have authorized := grants_authorize_no_more (run_of_acts prompt_of_isPrompt same)
  exact ⟨s, by simpa using posted, authorized.1, authorized.2.1⟩

theorem expired_grant_posts
    : ∃ s : System Bool, Run (fun _ _ => True) (start 0) s
      ∧ ∃ event ∈ s.events, ∃ grant ∈ s.minted, event.grantId = grant.grantId
        ∧ grant.expiresAt ≤ event.createdAt := by
  have acted : ((start 0).acts (fun _ _ => true) (mintAndPost 5)).any
      (fun s => s.events.any fun event => s.minted.any fun grant =>
        decide (event.grantId = grant.grantId ∧ grant.expiresAt ≤ event.createdAt)) = true := by
    decide +kernel
  obtain ⟨s, same, posted⟩ := Option.any_eq_true _ _ |>.mp acted
  refine ⟨s, run_of_acts (fun _ _ _ => trivial) same, ?_⟩
  simpa [List.any_eq_true] using posted

end

end PiFabric.Grants
