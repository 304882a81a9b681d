import PiFabric.Leases.Fencing

/-! What the fence of a host lease promises its incarnations: who may change the file, that one
predecessor has one successor, and what deadlines and unaccepted leases keep.
-/

namespace PiFabric.Leases

variable {ι : Type} [DecidableEq ι] {removers : ι → Remover} {s s' : System ι} {event : Event ι}

/-- The writer of a renewal, of an owned removal, and of an owned operation that is entered or
completed.
-/
def Event.owner? : Event ι → Option HostLease
  | .commit _ lease options => if options.claim then none else some lease
  | .removeOwned owner => some owner
  | .enter owner => some owner
  | .leave owner => some owner
  | _ => none

/-- What lets an event change the file. -/
def Allowed (s : System ι) : Event ι → Prop
  | .commit _ lease options => owns s.file lease
      ∨ options.claim = true ∧ ∃ current, s.file = current.map .lease
        ∧ samePredecessor current options.expected = true
  | .removeOwned owner => owns s.file owner
  | .writeVersion expected _ => s.file = expected.map .lease
  | .removeUnderCustody remover _ =>
      ∃ held, s.file = some (.lease held) ∧ remover.owned held = true
  | .move call => s.removals call = .accepted
  | .settle call _ => s.file = none ∧ ∃ content, s.removals call = .aside content
  | _ => False

theorem Step.owns (step : Step removers s event s') {owner : HostLease}
    (acts : event.owner? = some owner)
    : owns s.file owner := by
  cases step with
  | @commit now lease written options committed fresh =>
      simp only [Event.owner?] at acts
      split at acts
      · exact absurd acts (by simp)
      next renewal =>
      obtain rfl := Option.some.inj acts
      generalize s.file = file at committed
      obtain ⟨-, commits⟩ := commit_ok committed
      cases commits with
      | renews same => exact ⟨_, rfl, same⟩
      | claims claim same lapsed => exact absurd claim renewal
  | removeOwned free removed =>
      obtain rfl := Option.some.inj acts
      exact owns_of_removeOwned removed
  | enter free asserted =>
      obtain rfl := Option.some.inj acts
      exact owns_of_assert asserted
  | leave inside asserted =>
      obtain rfl := Option.some.inj acts
      exact owns_of_assert asserted
  | writeVersion free written bears fresh => exact absurd acts (by simp [Event.owner?])
  | removeUnderCustody free => exact absurd acts (by simp [Event.owner?])
  | judge idle found owned => exact absurd acts (by simp [Event.owner?])
  | move accepted found => exact absurd acts (by simp [Event.owner?])
  | settle aside => exact absurd acts (by simp [Event.owner?])

theorem Step.allowed (step : Step removers s event s') (changed : s'.file ≠ s.file)
    : Allowed s event := by
  cases step with
  | @commit now lease written options committed fresh =>
      obtain ⟨-, commits⟩ := commit_ok committed
      unfold Allowed
      generalize s.file = file at commits
      cases commits with
      | renews same => exact .inl ⟨_, rfl, same⟩
      | claims claim same lapsed => exact .inr ⟨claim, _, rfl, same⟩
  | removeOwned free removed => exact owns_of_removeOwned removed
  | writeVersion free written bears fresh => exact writeVersion_ok written
  | removeUnderCustody free => exact ((removeUnderCustody_cases ..).resolve_left changed).2
  | enter free asserted => exact absurd rfl changed
  | leave inside asserted => exact absurd rfl changed
  | judge idle found owned => exact absurd rfl changed
  | move accepted found => exact accepted
  | settle aside =>
      rcases settle_cases (removers _) _ _ s.file
        with ⟨-, same⟩ | ⟨free, -⟩ | ⟨-, same⟩ | ⟨same, -⟩
      · exact absurd same changed
      · exact ⟨free, _, aside⟩
      · exact absurd same changed
      · exact absurd same changed

/-- A claim that takes the name over, with the predecessor it captured. -/
structure TakesOver (removers : ι → Remover) (s : System ι) (lease : HostLease)
    (expected : Option HostLease) (s' : System ι) : Prop where
  step : ∃ now, Step removers s (.commit now lease { claim := true, expected }) s'
  foreign : ¬owns s.file lease

/-- A run in which the name is never free. -/
abbrev Held (removers : ι → Remover) : System ι → System ι → Prop :=
  Relation.ReflTransGen fun s s' => (∃ event, Step removers s event s') ∧ s'.file ≠ none

/-- The file is of an incarnation that was not there before, and what was seen stays seen. -/
structure Newer (seen : JsString → Prop) (s : System ι) : Prop where
  held : ∃ lease token, s.file = some (.lease lease) ∧ lease.incarnationToken = some token
    ∧ ¬seen token
  kept : ∀ token, seen token → s.seen token

theorem TakesOver.spec {lease : HostLease} {expected : Option HostLease}
    (h : TakesOver removers s lease expected s')
    : (∃ current, s.file = current.map .lease ∧ samePredecessor current expected = true)
      ∧ Newer s.seen s' := by
  obtain ⟨⟨now, step⟩, foreign⟩ := h
  cases step with
  | commit committed fresh =>
      obtain ⟨token, bears, new⟩ := fresh.resolve_left foreign
      obtain ⟨-, commits⟩ := commit_ok committed
      generalize s.file = file at commits foreign
      cases commits with
      | renews same => exact absurd ⟨_, rfl, same⟩ foreign
      | claims claim same lapsed =>
          exact ⟨⟨_, rfl, same⟩, ⟨_, token, rfl, bears, new⟩, fun _ seen => .inl seen⟩

theorem merged_token (lease current : HostLease)
    : (lease.merged current).incarnationToken = lease.incarnationToken := by
  unfold HostLease.merged
  split <;> rfl

/-- While the name is held, its incarnations stay newer than what was seen. -/
theorem Newer.step {seen : JsString → Prop} (h : Newer seen s) (step : Step removers s event s')
    (held : s'.file ≠ none)
    : Newer seen s' := by
  obtain ⟨⟨lease, token, file, bears, new⟩, kept⟩ := h
  have unseen {other : HostLease} (fresh : Fresh s.seen other)
      : ∃ token, other.incarnationToken = some token ∧ ¬seen token := by
    obtain ⟨token, bears, new⟩ := fresh
    exact ⟨token, bears, fun before => new (kept token before)⟩
  cases step with
  | @commit now next written options committed fresh =>
      refine ⟨?_, fun _ before => .inl (kept _ before)⟩
      obtain ⟨-, commits⟩ := commit_ok committed
      rw [file] at commits fresh
      have same_ (same : sameHostLeaseOwner lease next = true)
          : next.incarnationToken = some token :=
        (sameHostLeaseOwner_iff.mp same).2.2.2.2 ▸ bears
      have bearing : ∃ token, next.incarnationToken = some token ∧ ¬seen token := by
        rcases fresh with ⟨found, found_, same⟩ | fresh
        · obtain rfl := Content.lease.inj (Option.some.inj found_)
          exact ⟨token, same_ same, new⟩
        · exact unseen fresh
      obtain ⟨brought, bears', new'⟩ := bearing
      generalize (some (Content.lease lease) : File) = before at commits
      cases commits with
      | renews same => exact ⟨_, brought, rfl, (merged_token ..).trans bears', new'⟩
      | claims claim same lapsed => exact ⟨_, brought, rfl, bears', new'⟩
  | @writeVersion expected replacement free written bears' fresh =>
      refine ⟨?_, fun _ before => .inl (kept _ before)⟩
      rcases fresh with fresh | same
      · obtain ⟨brought, bears', new'⟩ := unseen fresh
        exact ⟨_, brought, rfl, bears', new'⟩
      · have found := file.symm.trans (writeVersion_ok written)
        cases expected with
        | none => exact absurd found (by simp)
        | some expected =>
            obtain rfl := Content.lease.inj (Option.some.inj found)
            exact ⟨_, token, rfl, same.symm.trans bears, new⟩
  | removeOwned free removed => exact absurd rfl held
  | removeUnderCustody free =>
      rcases removeUnderCustody_cases _ _ s.file with same | ⟨gone, -⟩
      · exact ⟨⟨lease, token, same.trans file, bears, new⟩, kept⟩
      · exact absurd gone held
  | enter free asserted => exact ⟨⟨lease, token, file, bears, new⟩, kept⟩
  | leave inside asserted => exact ⟨⟨lease, token, file, bears, new⟩, kept⟩
  | judge idle found owned => exact ⟨⟨lease, token, file, bears, new⟩, kept⟩
  | move accepted found => exact absurd rfl held
  | @settle call linkFails content aside =>
      rcases settle_cases (removers call) linkFails content s.file
        with ⟨-, same⟩ | ⟨free, -⟩ | ⟨-, same⟩ | ⟨same, -⟩
      · exact ⟨⟨lease, token, same.trans file, bears, new⟩, kept⟩
      · exact absurd (file.symm.trans free) (by simp)
      · exact ⟨⟨lease, token, same.trans file, bears, new⟩, kept⟩
      · exact ⟨⟨lease, token, same.trans file, bears, new⟩, kept⟩

theorem Newer.run {seen : JsString → Prop} (h : Newer seen s) (run : Held removers s s')
    : Newer seen s' := by
  induction run with
  | refl => exact h
  | tail _ step ih =>
      obtain ⟨⟨event, step⟩, held⟩ := step
      exact ih.step step held

/-- Of the claims that captured one predecessor, no second one takes the name over while it is
held.
-/
theorem TakesOver.unique {first second : HostLease} {expected expected' : Option HostLease}
    {t t' : System ι} (h : TakesOver removers s first expected s') (sound : Sound s)
    (captured : samePredecessor expected expected' = true) (run : Held removers s' t)
    : ¬TakesOver removers t second expected' t' := by
  intro again
  obtain ⟨⟨before, file, same⟩, newer⟩ := h.spec
  obtain ⟨⟨current, file', same'⟩, -⟩ := again.spec
  obtain ⟨⟨lease, token, held, bears, new⟩, -⟩ := newer.run run
  have equal : before.bind HostLease.incarnationToken = current.bind HostLease.incarnationToken :=
    calc before.bind HostLease.incarnationToken
      _ = expected.bind HostLease.incarnationToken := (token_of_samePredecessor same).1
      _ = expected'.bind HostLease.incarnationToken := (token_of_samePredecessor captured).1
      _ = current.bind HostLease.incarnationToken := (token_of_samePredecessor same').1.symm
  have now : current = some lease := by
    cases current with
    | none => exact absurd (held.symm.trans file') (by simp)
    | some current =>
        exact congrArg some (Content.lease.inj (Option.some.inj (held.symm.trans file'))).symm
  rw [now] at equal
  refine new (sound.seen token ?_)
  rw [file]
  cases before with
  | none => exact absurd (equal.trans bears) (by simp)
  | some before => exact equal.trans bears

/-- A legacy lease is only replaced by a commit once it has expired. -/
theorem Step.legacy {now : Time} {lease held : HostLease} {options : CommitOptions}
    (step : Step removers s (.commit now lease options) s') (file : s.file = some (.lease held))
    (legacy : held.incarnationToken = none)
    : held.expiresAt ≤ now := by
  cases step with
  | commit committed fresh =>
      obtain ⟨-, commits⟩ := commit_ok committed
      generalize s.file = found at commits file
      cases commits with
      | renews same =>
          obtain rfl := Content.lease.inj (Option.some.inj file)
          have bears := (sameHostLeaseOwner_iff.mp same).2.2.2.1
          exact absurd bears (by simp [legacy])
      | @claims current claim same lapsed =>
          cases current with
          | none => exact absurd file (by simp)
          | some current =>
              obtain rfl := Content.lease.inj (Option.some.inj file)
              exact lapsed current rfl legacy

theorem Step.unreadable (step : Step removers s event s') (h : Sound s)
    (file : s.file = some .unreadable)
    : s'.file = some .unreadable := by
  by_contra changed
  have allowed := step.allowed fun same => changed (same.trans file)
  cases event with
  | commit now lease options =>
      rcases allowed with ⟨held, found, -⟩ | ⟨-, current, found, -⟩
      · exact absurd (file.symm.trans found) (by simp)
      · cases current <;> exact absurd (file.symm.trans found) (by simp)
  | removeOwned owner =>
      obtain ⟨held, found, -⟩ := allowed
      exact absurd (file.symm.trans found) (by simp)
  | writeVersion expected replacement =>
      cases expected <;> exact absurd (file.symm.trans allowed) (by simp)
  | removeUnderCustody remover linkFails =>
      obtain ⟨held, found, -⟩ := allowed
      exact absurd (file.symm.trans found) (by simp)
  | enter owner => exact allowed
  | leave owner => exact allowed
  | judge call => exact allowed
  | move call => exact absurd (Eq.trans (Eq.symm allowed) (h.untouched file call)) (by simp)
  | settle call linkFails => exact absurd (file.symm.trans allowed.1) (by simp)

theorem mergedSession_le {session current session' : Session} {given : Option Session}
    (h : mergedSession given (some current) = some session') (held : current = session)
    (id : session'.id = session.id) (startedAt : session'.startedAt = session.startedAt)
    : session.expiresAt ≤ session'.expiresAt := by
  subst held
  cases given with
  | none => exact absurd h (by simp [mergedSession])
  | some given =>
      simp only [mergedSession] at h
      split at h
      · rw [← Option.some.inj h]
        exact le_max_right ..
      · next apart =>
          obtain rfl := Option.some.inj h
          exact absurd ⟨id.symm, startedAt.symm⟩ apart

/-- An ordinary renewal lowers neither deadline. -/
theorem Step.deadlines {now : Time} {lease held : HostLease} {options : CommitOptions}
    (step : Step removers s (.commit now lease options) s') (ordinary : lease.reloadUntil = none)
    (file : s.file = some (.lease held)) (same : sameHostLeaseOwner held lease = true)
    : ∃ written, s'.file = some (.lease written) ∧ held.expiresAt ≤ written.expiresAt
      ∧ ∀ session session', held.session = some session → written.session = some session' →
        session'.id = session.id → session'.startedAt = session.startedAt →
        session.expiresAt ≤ session'.expiresAt := by
  cases step with
  | @commit _ _ written _ committed fresh =>
      have merged : written = lease.merged held := by
        unfold commitHostLeaseUnderCustody at committed
        rw [file] at committed
        have bears := (sameHostLeaseOwner_iff.mp same).2.2.2
        have own : lease.incarnationToken.isSome = true := bears.2 ▸ bears.1
        have token : held.incarnationToken ≠ none := by
          intro none_
          exact absurd bears.1 (by simp [none_])
        simp only [own, if_true, hostLeasePredecessor, token, if_false, replaceLease, same]
          at committed
        exact (Except.ok.inj committed).symm
      refine ⟨written, rfl, ?_, ?_⟩
      · rw [merged, HostLease.merged, if_pos ordinary]
        exact le_max_right ..
      · intro session session' before after id startedAt
        rw [merged, HostLease.merged, if_pos ordinary] at after
        simp only [before] at after
        exact mergedSession_le after rfl id startedAt

/-- What a removal moved aside without accepting it stays aside until it is back under the name,
another lease has taken the name, or the copy is kept.
-/
theorem Step.unaccepted (step : Step removers s event s') {call : ι} {content : Content}
    (aside : s.removals call = .aside content) (refused : (removers call).accepts content = false)
    : s'.removals call = .aside content ∨ s'.file = some content
      ∨ (s.file ≠ none ∧ s'.file = s.file) ∨ s'.removals call = .finished (some content) := by
  cases step with
  | commit committed fresh => exact .inl aside
  | removeOwned free removed => exact .inl aside
  | writeVersion free written bears fresh => exact .inl aside
  | removeUnderCustody free => exact .inl aside
  | enter free asserted => exact .inl aside
  | leave inside asserted => exact .inl aside
  | @judge other held idle found owned =>
      have apart : call ≠ other := by
        rintro rfl
        exact absurd (idle.symm.trans aside) (by simp)
      exact .inl ((Function.update_of_ne apart ..).trans aside)
  | @move other held accepted found =>
      have apart : call ≠ other := by
        rintro rfl
        exact absurd (accepted.symm.trans aside) (by simp)
      exact .inl ((Function.update_of_ne apart ..).trans aside)
  | @settle other linkFails held moved =>
      by_cases same : call = other
      · subst same
        obtain rfl := Phase.aside.inj (moved.symm.trans aside)
        rcases settle_cases (removers call) linkFails held s.file
          with ⟨accepted, -⟩ | ⟨-, back⟩ | taken | ⟨-, kept⟩
        · exact absurd (accepted.symm.trans refused) (by simp)
        · exact .inr (.inl back)
        · exact .inr (.inr (.inl taken))
        · refine .inr (.inr (.inr ?_))
          exact (Function.update_self ..).trans (congrArg Phase.finished kept)
      · exact .inl ((Function.update_of_ne same ..).trans aside)

/-- What the fence promises of one step. -/
structure Fenced (removers : ι → Remover) (s : System ι) (event : Event ι) (s' : System ι) : Prop
    where
  owner : ∀ owner, event.owner? = some owner → owns s.file owner
  allowed : s'.file ≠ s.file → Allowed s event
  successor : ∀ first second expected expected' t t', TakesOver removers s first expected s' →
    samePredecessor expected expected' = true → Held removers s' t →
    ¬TakesOver removers t second expected' t'
  legacy : ∀ now lease options held, event = .commit now lease options →
    s.file = some (.lease held) → held.incarnationToken = none → held.expiresAt ≤ now
  unreadable : s.file = some .unreadable → s'.file = some .unreadable
  deadlines : ∀ now lease options held, event = .commit now lease options →
    lease.reloadUntil = none → s.file = some (.lease held) →
    sameHostLeaseOwner held lease = true →
    ∃ written, s'.file = some (.lease written) ∧ held.expiresAt ≤ written.expiresAt
      ∧ ∀ session session', held.session = some session → written.session = some session' →
        session'.id = session.id → session'.startedAt = session.startedAt →
        session.expiresAt ≤ session'.expiresAt
  /-- Whatever is under the name when a removal settles came there after it moved its lease. -/
  moved : ∀ call, event = .move call →
    s'.file = none ∧ ∃ content, s.file = some content ∧ s'.removals call = .aside content
  unaccepted : ∀ call content, s.removals call = .aside content →
    (removers call).accepts content = false →
    s'.removals call = .aside content ∨ s'.file = some content
      ∨ (s.file ≠ none ∧ s'.file = s.file) ∨ s'.removals call = .finished (some content)

theorem host_leases_are_fenced {file : File} (reachable : Reachable removers file s)
    (step : Step removers s event s')
    : Fenced removers s event s' where
  owner := fun _ acts => step.owns acts
  allowed := step.allowed
  successor := fun _ _ _ _ _ _ takes captured run => takes.unique reachable.sound captured run
  legacy := by
    rintro now lease options held rfl found none_
    exact step.legacy found none_
  unreadable := step.unreadable reachable.sound
  deadlines := by
    rintro now lease options held rfl ordinary found same
    exact step.deadlines ordinary found same
  moved := by
    rintro call rfl
    cases step with
    | @move _ content accepted found =>
        exact ⟨rfl, content, found, Function.update_self ..⟩
  unaccepted := fun _ _ aside refused => step.unaccepted aside refused

open JsString

/-- A removal on behalf of an incarnation changes the file only while the file is its own. -/
def RemovalsFenced : Prop :=
  ∀ (removers : Unit → Remover) (file : File) (s s' : System Unit) (owner : HostLease),
    Reachable removers file s → Step removers s (.move ()) s' →
    ((removers ()).owned = fun held => sameHostLeaseOwner held owner) →
    owns s.file owner

def exampleLease (token : String) : HostLease where
  id := lit "host:1"
  rootId := lit "root"
  identityId := lit "main"
  updatedAt := 0
  expiresAt := 15000
  startedAt := some 0
  incarnationToken := some (lit token)
  reloadUntil := none
  session := none
  carried := []

/-- The exit of the first incarnation. -/
def exampleRemover : Unit → Remover := fun _ =>
  { owned := fun held => sameHostLeaseOwner held (exampleLease "a"), beforeRemove := none }

def judged : System Unit where
  file := some (.lease (exampleLease "a"))
  inside := none
  removals := Function.update (fun _ => .idle) () .accepted
  seen := fun token => tokenOf (some (.lease (exampleLease "a"))) = some token

theorem judged_reachable
    : Reachable exampleRemover (some (.lease (exampleLease "a"))) judged :=
  .single ⟨.judge (), @Step.judge Unit _ exampleRemover (start _) () _ rfl rfl rfl⟩

def succeeded : System Unit where
  file := some (.lease (exampleLease "b"))
  inside := none
  removals := judged.removals
  seen := noted judged.seen (exampleLease "b")

theorem judged_succeeded
    : Step exampleRemover judged
        (.commit 1 (exampleLease "b") { claim := true, expected := some (exampleLease "a") })
        succeeded := by
  refine @Step.commit Unit _ exampleRemover judged 1 (exampleLease "b") (exampleLease "b")
    { claim := true, expected := some (exampleLease "a") } rfl (.inr ⟨lit "b", rfl, ?_⟩)
  show ¬tokenOf (some (.lease (exampleLease "a"))) = some (lit "b")
  decide

/-- The lease of the successor leaves its name, until the exit has judged it. -/
theorem removal_moves_successor : ¬RemovalsFenced := by
  intro fenced
  have step := @Step.move Unit _ exampleRemover succeeded () _ rfl rfl
  obtain ⟨held, found, same⟩ := fenced exampleRemover _ succeeded _ (exampleLease "a")
    (judged_reachable.tail ⟨_, judged_succeeded⟩) step rfl
  obtain rfl := Content.lease.inj (Option.some.inj found)
  exact absurd same (by decide)

theorem host_leases_are_fenced_successor
    : Fenced exampleRemover judged
        (.commit 1 (exampleLease "b") { claim := true, expected := some (exampleLease "a") })
        succeeded :=
  host_leases_are_fenced judged_reachable judged_succeeded

end PiFabric.Leases
