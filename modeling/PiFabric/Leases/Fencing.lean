import PiFabric.Foundation.Outcome
import PiFabric.Leases.File

/-! The writers of one host lease file: sections under custody, and removals that run without it.
A writer keeps the file only while the file holds its own token.
-/

namespace PiFabric.Leases

open Outcome

inductive Phase where
  | idle
  | accepted
  | aside (content : Content)
  | finished (kept : Option Content)

/-- The file, the owned operation inside its custody, the removals, and the tokens that the file
has held.
-/
structure System (ι : Type) where
  file : File
  inside : Option HostLease
  removals : ι → Phase
  seen : JsString → Prop

inductive Event (ι : Type) where
  | commit (now : Time) (lease : HostLease) (options : CommitOptions)
  | removeOwned (owner : HostLease)
  | writeVersion (expected : Option HostLease) (replacement : HostLease)
  | removeUnderCustody (remover : Remover) (linkFails : Bool)
  | enter (owner : HostLease)
  | leave (owner : HostLease)
  | judge (call : ι)
  | move (call : ι)
  | settle (call : ι) (linkFails : Bool)

/-- Whether a lease of the writer's token is under the name. -/
def owns (file : File) (owner : HostLease) : Prop :=
  ∃ held, file = some (.lease held) ∧ sameHostLeaseOwner held owner = true

/-- Every incarnation has a token of its own: one that takes the name over was not there before.
-/
def Fresh (seen : JsString → Prop) (lease : HostLease) : Prop :=
  ∃ token, lease.incarnationToken = some token ∧ ¬seen token

def noted (seen : JsString → Prop) (lease : HostLease) (token : JsString) : Prop :=
  seen token ∨ lease.incarnationToken = some token

variable {ι : Type} [DecidableEq ι]

/-- What a writer does. Sections under custody are single steps, but for an owned operation, which
holds its custody from `enter` to `leave` and may commit in between.
-/
inductive Step (removers : ι → Remover) : System ι → Event ι → System ι → Prop
  | commit {s : System ι} {now : Time} {lease written : HostLease} {options : CommitOptions}
      (committed : commitHostLeaseUnderCustody now lease options s.file = .ok written)
      (fresh : owns s.file lease ∨ Fresh s.seen lease)
      : Step removers s (.commit now lease options) {
        s with
        file := some (.lease written)
        inside := s.inside.map fun _ => lease
        seen := noted s.seen written
      }
  | removeOwned {s : System ι} {owner : HostLease} (free : s.inside = none)
      (removed : removeOwnedHostLease owner s.file = .ok true)
      : Step removers s (.removeOwned owner) { s with file := none }
  | writeVersion {s : System ι} {expected : Option HostLease} {replacement : HostLease}
      (free : s.inside = none)
      (written : writeHostLeaseVersionIf expected replacement s.file = true)
      (bears : replacement.incarnationToken.isSome = true)
      (fresh : Fresh s.seen replacement
        ∨ expected.bind HostLease.incarnationToken = replacement.incarnationToken)
      : Step removers s (.writeVersion expected replacement) {
        s with
        file := some (.lease replacement)
        seen := noted s.seen replacement
      }
  | removeUnderCustody {s : System ι} {remover : Remover} {linkFails : Bool}
      (free : s.inside = none)
      : Step removers s (.removeUnderCustody remover linkFails)
        { s with file := (remover.removeUnderCustody linkFails s.file).file }
  | enter {s : System ι} {owner : HostLease} (free : s.inside = none)
      (asserted : assertHostLeaseOwner s.file owner = .ok ())
      : Step removers s (.enter owner) { s with inside := some owner }
  /-- The operation is over and its owner is asserted again: it completes. -/
  | leave {s : System ι} {owner : HostLease} (inside : s.inside = some owner)
      (asserted : assertHostLeaseOwner s.file owner = .ok ())
      : Step removers s (.leave owner) { s with inside := none }
  | judge {s : System ι} {call : ι} {held : HostLease} (idle : s.removals call = .idle)
      (found : s.file = some (.lease held)) (owned : (removers call).owned held = true)
      : Step removers s (.judge call)
        { s with removals := Function.update s.removals call .accepted }
  | move {s : System ι} {call : ι} {content : Content} (accepted : s.removals call = .accepted)
      (found : s.file = some content)
      : Step removers s (.move call) {
        s with
        file := none
        removals := Function.update s.removals call (.aside content)
      }
  | settle {s : System ι} {call : ι} {linkFails : Bool} {content : Content}
      (aside : s.removals call = .aside content)
      : Step removers s (.settle call linkFails) {
        s with
        file := ((removers call).settle linkFails content s.file).file
        removals := Function.update s.removals call
          (.finished ((removers call).settle linkFails content s.file).aside)
      }

def tokenOf : File → Option JsString
  | some (.lease held) => held.incarnationToken
  | _ => none

/-- Any file, before any of its writers. -/
def start (file : File) : System ι where
  file
  inside := none
  removals := fun _ => .idle
  seen := fun token => tokenOf file = some token

def Reachable (removers : ι → Remover) (file : File) (s : System ι) : Prop :=
  Relation.ReflTransGen (fun s s' => ∃ event, Step removers s event s') (start file) s

variable {file : File}

theorem owns_of_assert {owner : HostLease} (h : assertHostLeaseOwner file owner = .ok ())
    : owns file owner := by
  cases file with
  | none => simp [assertHostLeaseOwner, hostLeasePredecessor] at h
  | some content =>
      cases content with
      | unreadable => simp [assertHostLeaseOwner, hostLeasePredecessor] at h
      | lease held =>
          simp only [assertHostLeaseOwner, hostLeasePredecessor] at h
          split at h
          · exact absurd h (by simp)
          split at h
          · next same => exact ⟨held, rfl, same⟩
          · exact absurd h (by simp)

theorem owns_of_removeOwned {owner : HostLease} (h : removeOwnedHostLease owner file = .ok true)
    : owns file owner := by
  unfold removeOwnedHostLease at h
  cases file with
  | none => simp [readHostLeaseCurrent] at h
  | some content =>
      cases content with
      | unreadable => simp [readHostLeaseCurrent] at h
      | lease held =>
          simp only [readHostLeaseCurrent] at h
          split at h
          · exact absurd h (by simp)
          · exact ⟨held, rfl, Except.ok.inj h⟩

/-- What a commit found: a lease of its own to merge with, or the predecessor that its claim names.
-/
inductive Commits (now : Time) (lease : HostLease) (options : CommitOptions)
    : File → HostLease → Prop
  | renews {held : HostLease} (same : sameHostLeaseOwner held lease = true)
      : Commits now lease options (some (.lease held)) (lease.merged held)
  | claims {current : Option HostLease} (claim : options.claim = true)
      (same : samePredecessor current options.expected = true)
      (lapsed : ∀ held, current = some held → held.incarnationToken = none → held.expiresAt ≤ now)
      : Commits now lease options (current.map .lease) lease

variable {lease : HostLease}

theorem replaceLease_ok {written : HostLease} {options : CommitOptions} {current : Option HostLease}
    (h : replaceLease lease options current = .ok written)
    : (∃ held, current = some held ∧ sameHostLeaseOwner held lease = true
        ∧ written = lease.merged held)
      ∨ options.claim = true ∧ samePredecessor current options.expected = true
        ∧ written = lease := by
  unfold replaceLease at h
  split at h
  · next held =>
      split at h
      · next same => exact .inl ⟨held, rfl, same, (Except.ok.inj h).symm⟩
      split at h
      · next claimed => exact .inr ⟨claimed.1, claimed.2, (Except.ok.inj h).symm⟩
      · exact absurd h (by simp)
  · split at h
    · next claimed => exact .inr ⟨claimed.1, claimed.2, (Except.ok.inj h).symm⟩
    · exact absurd h (by simp)

theorem commit_ok {now : Time} {written : HostLease} {options : CommitOptions}
    (h : commitHostLeaseUnderCustody now lease options file = .ok written)
    : lease.incarnationToken.isSome = true ∧ Commits now lease options file written := by
  unfold commitHostLeaseUnderCustody at h
  split at h
  swap
  · exact absurd h (by simp)
  next bears =>
  refine ⟨bears, ?_⟩
  cases file with
  | none =>
      rcases replaceLease_ok h with ⟨held, none_, -⟩ | ⟨claim, same, rfl⟩
      · exact absurd none_ (by simp)
      · exact @Commits.claims _ _ _ none claim same (by simp)
  | some content =>
      cases content with
      | unreadable => exact absurd h (by simp [hostLeasePredecessor])
      | lease held =>
          have committed : replaceLease lease options (some held) = .ok written
              ∧ (held.incarnationToken = none → held.expiresAt ≤ now) := by
            simp only [hostLeasePredecessor] at h
            split at h
            · split at h
              · exact absurd h (by simp)
              split at h
              · exact absurd h (by simp)
              next lapsed => exact ⟨h, fun _ => not_lt.mp lapsed⟩
            · next bearing => exact ⟨h, fun legacy => absurd legacy bearing⟩
          rcases replaceLease_ok committed.1 with ⟨_, same_, same, rfl⟩ | ⟨claim, same, rfl⟩
          · obtain rfl := Option.some.inj same_
            exact .renews same
          · refine @Commits.claims _ _ _ (some held) claim same ?_
            intro _ same_
            obtain rfl := Option.some.inj same_
            exact committed.2

theorem sameHostLeaseOwner_iff {left right : HostLease}
    : sameHostLeaseOwner left right = true
      ↔ left.id = right.id ∧ left.rootId = right.rootId ∧ left.identityId = right.identityId
        ∧ left.incarnationToken.isSome = true
        ∧ left.incarnationToken = right.incarnationToken := by
  simp [sameHostLeaseOwner, and_assoc]

theorem token_of_samePredecessor {current expected : Option HostLease}
    (h : samePredecessor current expected = true)
    : current.bind HostLease.incarnationToken = expected.bind HostLease.incarnationToken
      ∧ current.isSome = expected.isSome := by
  unfold samePredecessor at h
  split at h
  · exact ⟨rfl, rfl⟩
  · next left right =>
      split at h
      · exact ⟨(sameHostLeaseOwner_iff.mp h).2.2.2.2, rfl⟩
      · next bare =>
          simp only [Bool.or_eq_true, not_or, Bool.not_eq_true, Option.isSome_eq_false_iff,
            Option.isNone_iff_eq_none] at bare
          exact ⟨bare.1.trans bare.2.symm, rfl⟩
  · exact absurd h (by simp)

theorem writeVersion_ok {expected : Option HostLease} {replacement : HostLease}
    (h : writeHostLeaseVersionIf expected replacement file = true)
    : file = expected.map .lease := by
  simp only [writeHostLeaseVersionIf, Bool.and_eq_true, Bool.or_eq_true, decide_eq_true_eq] at h
  obtain ⟨⟨-, read⟩, present⟩ := h
  cases expected with
  | none => simpa using present
  | some held =>
      cases file with
      | none => simp [readHostLeaseCurrent] at read
      | some content =>
          cases content with
          | unreadable => simp [readHostLeaseCurrent] at read
          | lease found => simpa [readHostLeaseCurrent] using read

/-- The ends of a removal: the bytes were accepted, another file has the name, they are back under
it, or they are kept aside.
-/
theorem settle_cases (remover : Remover) (linkFails : Bool) (aside : Content) (file : File)
    : (remover.accepts aside = true ∧ (remover.settle linkFails aside file).file = file)
      ∨ (file = none ∧ (remover.settle linkFails aside file).file = some aside)
      ∨ (file ≠ none ∧ (remover.settle linkFails aside file).file = file)
      ∨ ((remover.settle linkFails aside file).file = file
        ∧ (remover.settle linkFails aside file).aside = some aside) := by
  unfold Remover.settle
  split
  · next accepted =>
      rw [Bool.and_eq_true] at accepted
      exact .inl ⟨accepted.1, rfl⟩
  split
  · exact .inr (.inr (.inr ⟨rfl, rfl⟩))
  cases file with
  | none => exact .inr (.inl ⟨rfl, rfl⟩)
  | some content => exact .inr (.inr (.inl ⟨by simp, rfl⟩))

/-- Under custody a removal takes nothing that it does not accept. -/
theorem removeUnderCustody_cases (remover : Remover) (linkFails : Bool) (file : File)
    : (remover.removeUnderCustody linkFails file).file = file
      ∨ (remover.removeUnderCustody linkFails file).file = none
        ∧ ∃ held, file = some (.lease held) ∧ remover.owned held = true := by
  unfold Remover.removeUnderCustody
  split
  · next held =>
      split
      · next owned =>
          rcases settle_cases remover linkFails (.lease held) none
            with ⟨-, same⟩ | ⟨-, same⟩ | ⟨taken, -⟩ | ⟨same, -⟩
          · exact .inr ⟨same, held, rfl, owned⟩
          · exact .inl same
          · exact absurd rfl taken
          · exact .inr ⟨same, held, rfl, owned⟩
      · exact .inl rfl
  · exact .inl rfl

variable {removers : ι → Remover} {s s' : System ι} {event : Event ι}

/-- Every token of the file and of the copies aside was seen, and bytes that are no lease are only
where nothing was ever accepted.
-/
structure Sound (s : System ι) : Prop where
  seen : ∀ token, tokenOf s.file = some token → s.seen token
  asides : ∀ call content token, s.removals call = .aside content →
    tokenOf (some content) = some token → s.seen token
  untouched : s.file = some .unreadable → ∀ call, s.removals call = .idle
  readable : ∀ call, s.removals call ≠ .aside .unreadable

theorem aside_update {call other : ι} {phase : Phase} {content : Content}
    (h : Function.update s.removals call phase other = .aside content)
    : phase = .aside content ∨ s.removals other = .aside content := by
  by_cases same : other = call
  · rw [same, Function.update_self] at h
    exact .inl h
  · rw [Function.update_of_ne same] at h
    exact .inr h

omit [DecidableEq ι] in
theorem Sound.write (h : Sound s) {inside : Option HostLease}
    : Sound { s with
        file := some (.lease lease)
        inside
        seen := noted s.seen lease } where
  seen := fun _ token => .inr token
  asides := fun call content token aside found => .inl (h.asides call content token aside found)
  untouched := fun unreadable => absurd unreadable (by simp)
  readable := h.readable

omit [DecidableEq ι] in
/-- A step that keeps or clears the name. -/
theorem Sound.clear (h : Sound s) (file_ : file = s.file ∨ file = none) {inside : Option HostLease}
    : Sound { s with file, inside } := by
  rcases file_ with rfl | rfl
  · exact ⟨h.seen, h.asides, h.untouched, h.readable⟩
  · exact ⟨by simp [tokenOf], h.asides, by simp, h.readable⟩

theorem Step.sound (step : Step removers s event s') (h : Sound s) : Sound s' := by
  cases step with
  | commit committed fresh => exact h.write
  | removeOwned free removed => exact h.clear (.inr rfl)
  | writeVersion free written bears fresh => exact h.write
  | removeUnderCustody free =>
      exact h.clear ((removeUnderCustody_cases ..).imp_right And.left)
  | enter free asserted => exact h.clear (.inl rfl)
  | leave inside asserted => exact h.clear (.inl rfl)
  | judge idle found owned =>
      refine ⟨h.seen, ?_, ?_, ?_⟩
      · intro call content token aside
        exact h.asides call content token ((aside_update aside).resolve_left (by simp))
      · intro unreadable
        exact absurd (found.symm.trans unreadable) (by simp)
      · intro call aside
        exact h.readable call ((aside_update aside).resolve_left (by simp))
  | @move call content accepted found =>
      have held : content ≠ .unreadable := by
        rintro rfl
        exact absurd (accepted.symm.trans (h.untouched found call)) (by simp)
      refine ⟨by simp [tokenOf], ?_, by simp, ?_⟩
      · intro other moved token aside same
        rcases aside_update aside with equal | before
        · obtain rfl := Phase.aside.inj equal
          exact h.seen token (found ▸ same)
        · exact h.asides other moved token before same
      · intro other aside
        rcases aside_update aside with equal | before
        · exact held (Phase.aside.inj equal)
        · exact h.readable other before
  | @settle call linkFails content aside =>
      have held : content ≠ .unreadable := by
        rintro rfl
        exact h.readable call aside
      have file : ((removers call).settle linkFails content s.file).file = s.file
          ∨ ((removers call).settle linkFails content s.file).file = some content := by
        rcases settle_cases (removers call) linkFails content s.file
          with ⟨-, same⟩ | ⟨-, same⟩ | ⟨-, same⟩ | ⟨same, -⟩
        · exact .inl same
        · exact .inr same
        · exact .inl same
        · exact .inl same
      have others (other : ι) (moved : Content)
          (found : Function.update s.removals call
            (.finished ((removers call).settle linkFails content s.file).aside) other
            = .aside moved)
          : s.removals other = .aside moved := (aside_update found).resolve_left (by simp)
      refine ⟨?_, ?_, ?_, ?_⟩
      · intro token found
        simp only at found
        rcases file with same | same
        · exact h.seen token (same ▸ found)
        · exact h.asides call content token aside (same ▸ found)
      · exact fun other moved token found => h.asides other moved token (others other moved found)
      · intro unreadable
        simp only at unreadable
        rcases file with same | same
        · exact absurd (aside.symm.trans (h.untouched (same ▸ unreadable) call)) (by simp)
        · exact absurd (Option.some.inj (same.symm.trans unreadable)) held
      · exact fun other found => h.readable other (others other _ found)

omit [DecidableEq ι] in
theorem sound_start (file : File) : Sound (start file : System ι) where
  seen := fun _ token => token
  asides := by simp [start]
  untouched := fun _ _ => rfl
  readable := by simp [start]

theorem Reachable.sound (h : Reachable removers file s) : Sound s := by
  induction h with
  | refl => exact sound_start file
  | tail _ step ih =>
      obtain ⟨event, step⟩ := step
      exact step.sound ih

end PiFabric.Leases
