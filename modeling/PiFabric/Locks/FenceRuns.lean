import PiFabric.Locks.Recoverers

/-! Releasing a fence lock never harms a successor, in whatever order its holders, recoverers and
processes take their steps.
-/

namespace PiFabric.Locks

open Directories (Errno Fault)
open Directories.Tree (Change)
open Interleaving (Prog Protocol Config Run Step)

variable {ι P : Type} [DecidableEq ι] [DecidableEq P]

structure FenceParties (ι P : Type) where
  wire : ι → Wire
  procFd : Bool
  attempts : ι → Nat
  recoveries : Nat → List (Recovery ι)
  fates : P → List Fate

abbrev FenceConfig (ι P : Type) : Type :=
  Config (Thread ι P) (World ι P) (Call ι P) Reply (Option FenceOutcome)

def FenceParties.start (parties : FenceParties ι P) (system : System ι P) : FenceConfig ι P where
  world := .start ι P
  threads
    | .holder self => some <$> holdMeshFenceSync (parties.wire self) parties.procFd self
        (system.record self) (parties.attempts self)
    | .recoverer number => (fun _ => none) <$> recover (parties.recoveries number)
    | .fate process => (fun _ => none) <$> befall process (parties.fates process)

variable {system : System ι P} {parties : FenceParties ι P} {config config' : FenceConfig ι P}
  {self : ι} {pin inode : Nat}

def fenceEnds (system : System ι P) : Thread ι P → World ι P → Option FenceOutcome → Prop
  | .holder self, w, some outcome => FenceEnded system self w outcome
  | .holder _, _, none | .recoverer _, _, _ | .fate _, _, _ => True

theorem fence_allSound (unique : Function.Injective system.record) (parties : FenceParties ι P)
    : (protocol system false).AllSound (fenceEnds system) (parties.start system) := by
  refine ⟨Inv.start system, fun thread => ?_⟩
  cases thread with
  | holder self =>
      exact .map (sound_holdMeshFenceSync unique _ (Inv.start system) (.start system self))
  | recoverer number => exact .map (sound_recover unique _ _)
  | fate process => exact .map (sound_befall _ _)

abbrev FenceRun (system : System ι P) : FenceConfig ι P → FenceConfig ι P → Prop :=
  Run (Performs system)

theorem fence_run_sound (unique : Function.Injective system.record)
    (run : FenceRun system (parties.start system) config)
    : (protocol system false).AllSound (fenceEnds system) config :=
  ((fence_allSound unique parties).run run).1

/-- A holder of the fence renames and empties nothing but its own staging. -/
def Modest (self : ι) : Call ι P → Prop
  | .fs (.rename name _) | .fs (.unlink name) => ∃ attempt, name = .staging self attempt
  | .fs _ | .enter | .leave => True
  | .examine _ | .judged _ _ | .recover _ | .lapse _ | .exit _ => False

section
omit [DecidableEq ι] [DecidableEq P]

theorem modest_fs {α : Type} {call : Directories.Call (Name ι) String}
    {next : Directories.Reply call → Proc ι P α} (modest : @Modest ι P self (.fs call))
    (rest : ∀ reply, (next reply).Only (Modest self))
    : (fs call >>= next).Only (Modest self) :=
  ⟨modest, rest⟩

theorem modest_rmSync (self : ι) (attempt : Nat)
    : (rmSync (P := P) (.staging self attempt)).Only (Modest self) := by
  refine modest_fs ⟨attempt, rfl⟩ fun reply => ?_
  cases forced reply with
  | ok value => exact modest_fs trivial fun _ => trivial
  | error error => trivial

theorem modest_publishOwner (self : ι) (attempt : Nat) (record : String)
    : (publishOwner (P := P) self attempt record).Only (Modest self) := by
  refine modest_fs trivial fun reply => ?_
  cases reply with
  | error error => trivial
  | ok value =>
      refine modest_fs trivial fun reply => ?_
      cases reply with
      | ok found => trivial
      | error error =>
          cases error with
          | enoent =>
              refine modest_fs ⟨attempt, rfl⟩ fun reply => ?_
              cases reply <;> trivial
          | eexist | enotempty | eperm | eacces | eio => trivial

theorem modest_tryCustody (self : ι) (attempt : Nat) (record : String)
    : (tryCustody (P := P) self attempt record).Only (Modest self) := by
  refine modest_fs trivial fun reply => ?_
  cases reply with
  | error error => trivial
  | ok value =>
      refine (modest_publishOwner self attempt record).bind fun published => ?_
      refine (modest_rmSync self attempt).bind fun removed => ?_
      cases removed <;> trivial

theorem modest_tryMeshLock (self : ι) (record : String)
    : (tryMeshLock (ι := ι) (P := P) record).Only (Modest self) := by
  refine modest_fs trivial fun reply => ?_
  cases reply with
  | error error => cases error <;> trivial
  | ok value =>
      refine modest_fs trivial fun reply => ?_
      cases reply with
      | ok value => trivial
      | error error =>
          cases error with
          | eexist => trivial
          | enoent | enotempty | eperm | eacces | eio => exact ⟨trivial, fun _ => trivial⟩

theorem modest_pinFenceLock (self : ι) (platform : Platform) (procFd : Bool) (record : String)
    : (pinFenceLock (ι := ι) (P := P) platform procFd record).Only (Modest self) := by
  unfold pinFenceLock
  split
  · trivial
  · refine modest_fs trivial fun reply => ?_
    cases reply with
    | error error => trivial
    | ok inode =>
        cases procFd with
        | false => trivial
        | true =>
            refine modest_fs trivial fun reply => ?_
            cases reply with
            | ok owner => trivial
            | error error => cases error <;> trivial

theorem modest_releaseUnremoved (self : ι) (record : String) (ours : Nat) (cause : Errno)
    : (releaseUnremoved (ι := ι) (P := P) record ours cause).Only (Modest self) := by
  refine modest_fs trivial fun reply => ?_
  cases reply with
  | error error => cases error <;> trivial
  | ok inode =>
      dsimp only
      split
      · trivial
      · refine modest_fs trivial fun reply => ?_
        cases reply <;> trivial

theorem modest_releaseAfterOwnerUnlink (self : ι) (record : String) (ours : Nat)
    : (releaseAfterOwnerUnlink (ι := ι) (P := P) record ours).Only (Modest self) := by
  refine modest_fs trivial fun reply => ?_
  cases reply with
  | error error => cases error <;> trivial
  | ok inode =>
      dsimp only
      split
      · trivial
      · refine modest_fs trivial fun reply => ?_
        cases reply with
        | ok value => trivial
        | error cause =>
            cases cause with
            | enoent => trivial
            | eexist | enotempty | eperm | eacces | eio => exact modest_releaseUnremoved ..

theorem modest_releaseFenceLock (self : ι) (record : String) (pin : Nat)
    : (releaseFenceLock (ι := ι) (P := P) record pin).Only (Modest self) := by
  refine modest_fs trivial fun reply => ?_
  cases reply with
  | error error => trivial
  | ok owner =>
      dsimp only
      split
      · trivial
      · refine modest_fs trivial fun reply => ?_
        cases reply with
        | error error => trivial
        | ok ours =>
            refine modest_fs trivial fun reply => ?_
            cases reply with
            | error error => cases error <;> trivial
            | ok inode =>
                dsimp only
                split
                · trivial
                · refine modest_fs trivial fun reply => ?_
                  cases reply with
                  | error error => trivial
                  | ok value => exact modest_releaseAfterOwnerUnlink ..

theorem modest_holdMeshFenceSync (wire : Wire) (procFd : Bool) (self : ι) (record : String)
    (attempts : Nat)
    : (holdMeshFenceSync (P := P) wire procFd self record attempts).Only (Modest self) := by
  induction attempts with
  | zero => trivial
  | succ attempts ih =>
      have attempt : (attemptFence (P := P) wire self attempts record).Only (Modest self) := by
        cases wire with
        | custody => exact modest_tryCustody ..
        | mesh => exact modest_tryMeshLock ..
      refine attempt.bind fun outcome => ?_
      match outcome with
      | .error error => trivial
      | .ok false => exact ih
      | .ok true =>
          refine (modest_pinFenceLock ..).bind fun pin => ?_
          cases pin with
          | pinned pin =>
              refine ⟨trivial, fun _ => ⟨trivial, fun _ => ?_⟩⟩
              exact (modest_releaseFenceLock ..).bind fun _ => trivial
          | unpinned => trivial
          | foreign => exact ih

end

variable {w : World ι P} {record : String}

omit [DecidableEq P] in
theorem Modest.names_kept {call : Directories.Call (Name ι) String}
    {tree : Directories.Tree (Name ι) String} (modest : @Modest ι P self (.fs call))
    (inv : Inv system w) (change : Change w.tree call tree)
    (held : w.tree.owner inode = some record) (foreign : record ≠ system.record self)
    (name : Name ι)
    : tree.names name = some inode ↔ w.tree.names name = some inode := by
  have apart : ∀ {source target}, call = .rename source target →
      w.tree.names source ≠ some inode := by
    rintro source target rfl there
    obtain ⟨attempt, rfl⟩ := modest
    exact foreign (inv.staging there held)
  constructor
  · intro there
    rcases change.name_new there with before | ⟨-, rfl⟩ | ⟨source, is, before⟩
    · exact before
    · exact absurd (inv.wf.made held) (lt_irrefl _)
    · exact absurd before (apart is)
  · intro there
    rcases change.name_kept there with stays | ⟨target, is, -⟩ | bare
    · exact stays
    · exact absurd there (apart is)
    · exact absurd (held.symm.trans bare) (by simp)

variable {w' : World ι P}

theorem foreign_kept {request : Call ι P} {next : Reply request → Proc ι P (Option FenceOutcome)}
    {reply : Reply request} (unique : Function.Injective system.record)
    (run : FenceRun system (parties.start system) config)
    (at_ : config.threads (.holder self) = .call request next)
    (performed : Performs system (.holder self) config.world request reply w')
    (held : config.world.tree.owner inode = some record) (foreign : record ≠ system.record self)
    : w'.tree.owner inode = some record
      ∧ ∀ name, w'.tree.names name = some inode ↔ config.world.tree.names name = some inode := by
  have sound := fence_run_sound unique run
  have inv := sound.1
  have only : (config.threads (.holder self)).Only (Modest self) := by
    refine run.only ?_
    exact (modest_holdMeshFenceSync ..).bind fun _ => trivial
  rw [at_] at only
  have here := sound.2 (.holder self)
  rw [at_] at here
  obtain ⟨guaranteed, -⟩ := here config.world (.refl inv) reply w' performed
  obtain ⟨author, rfl⟩ := inv.owned held
  have apart : Thread.holder author ≠ (.holder self : Thread ι P) := by
    intro same
    cases same
    exact foreign rfl
  have rely : Rely system false author config.world w' := guaranteed.others _ apart
  refine ⟨rely.unerased rfl held, fun name => ?_⟩
  cases performed with
  | examine => exact only.1.elim
  | @call _ fault _ _ may performed =>
      cases request with
      | fs call =>
          simp only [World.perform, Option.some.injEq] at performed
          cases answered : config.world.tree.respond call fault with
          | mk reply' tree =>
              rw [answered] at performed
              cases performed
              exact Modest.names_kept only.1 inv (Directories.Tree.respond_change answered) held
                foreign name
      | enter | leave =>
          cases performed
          exact Iff.rfl
      | examine | judged | recover | lapse | exit => exact only.1.elim

/-- A release that has not yet checked that its directory is at the lock. -/
inductive Unchecked (record : String) (pin : Nat) : Proc ι P FenceLockRelease → Prop
  | read : Unchecked record pin (releaseFenceLock record pin)
  | owned : Unchecked record pin (releaseOwned record pin)
  | named : Unchecked record pin (releaseAtName record pin pin)

def closing (pin : Nat) (release : Proc ι P FenceLockRelease) : Proc ι P (Option FenceOutcome) :=
  some <$> (release >>= fun outcome => pure (.ended pin outcome))

/-- The release that finds its directory gone: it goes on looking, or has refused. -/
def Refusing (record : String) (pin : Nat) (program : Proc ι P (Option FenceOutcome)) : Prop :=
  (∃ release, Unchecked record pin release ∧ program = closing pin release)
    ∨ ∃ release, release ≠ .released ∧ program = .done (some (.ended pin release))

theorem performs_look {thread : Thread ι P} {call : Directories.Call (Name ι) String}
    {reply : Directories.Reply call} (looks : call.looks = true) (inv : Inv system w)
    (performed : Performs system thread w (.fs call) reply w')
    : w' = w ∧ ∃ fault tree, w.tree.respond call fault = (reply, tree) := by
  cases performed with
  | @call _ fault _ _ may performed =>
      simp only [World.perform, Option.some.injEq] at performed
      cases answered : w.tree.respond call fault with
      | mk reply' tree =>
          rw [answered] at performed
          cases performed
          exact ⟨left_of_looks inv looks answered, fault, tree, answered⟩

/-- Where its directory is off the lock, what a release calls changes nothing and leads to a
refusal.
-/
theorem Refusing.step {request : Call ι P} {next : Reply request → Proc ι P (Option FenceOutcome)}
    {reply : Reply request} (refusing : Refusing record pin (.call request next))
    (off : w.tree.names .lock ≠ some pin) (inv : Inv system w)
    (performed : Performs system (.holder self) w request reply w')
    : w' = w ∧ Refusing record pin (next reply) := by
  have refused : ∀ {release}, release ≠ .released →
      Refusing (ι := ι) (P := P) record pin (.done (some (.ended pin release))) :=
    fun other => .inr ⟨_, other, rfl⟩
  rcases refusing with ⟨release, unchecked, is⟩ | ⟨release, other, wrong⟩
  · cases unchecked with
    | read =>
        cases is
        obtain ⟨same, fault, tree, answered⟩ := performs_look rfl inv performed
        refine ⟨same, ?_⟩
        cases reply with
        | error error => exact refused (by simp)
        | ok owner =>
            have branch : ∀ owner : String, Refusing (ι := ι) (P := P) record pin (closing pin
                (if owner ≠ record then pure (.refused none) else releaseOwned record pin)) := by
              intro owner
              split
              · exact refused (by simp)
              · exact .inl ⟨_, .owned, rfl⟩
            exact branch owner
    | owned =>
        cases is
        obtain ⟨same, fault, tree, answered⟩ := performs_look rfl inv performed
        refine ⟨same, ?_⟩
        cases reply with
        | error error => exact refused (by simp)
        | ok ours =>
            cases Directories.Tree.eq_of_fstat answered
            exact .inl ⟨_, .named, rfl⟩
    | named =>
        cases is
        obtain ⟨same, fault, tree, answered⟩ := performs_look rfl inv performed
        refine ⟨same, ?_⟩
        cases reply with
        | error error => cases error <;> exact refused (by simp)
        | ok found =>
            have at_ := Directories.Tree.names_of_lstat answered
            have other : found ≠ pin := by
              rintro rfl
              exact off at_
            have branch : ∀ found : Nat, found ≠ pin → ∀ rest : Proc ι P FenceLockRelease,
                Refusing record pin (closing pin
                  (if found ≠ pin then pure (.refused none) else rest)) := by
              intro found other rest
              rw [if_pos other]
              exact refused (by simp)
            exact branch found other _
  · cases wrong

/-- The directory that is about to be released was published once: every call may fail, and what
is known then was known before.
-/
theorem placed_of_unchecked {release : Proc ι P FenceLockRelease}
    (unique : Function.Injective system.record)
    (run : FenceRun system (parties.start system) config)
    (unchecked : Unchecked (system.record self) pin release)
    (at_ : config.threads (.holder self) = closing pin release)
    (may : config.world.status (system.process self) ≠ .dead)
    : Placed config.world pin := by
  have sound := fence_run_sound unique run
  have inv := sound.1
  have here := sound.2 (.holder self)
  rw [at_] at here
  have fails : ∀ {call : Directories.Call (Name ι) String},
      Performs system (.holder self) config.world (.fs call) (.error .eio) config.world := by
    intro call
    have same : config.world.left config.world.tree = config.world := inv.left_self
    have performed : config.world.perform system (.holder self) (.fs call) (some .eio)
        = some (.error .eio, config.world) := by
      simp only [World.perform, Directories.Tree.respond, same]
      rfl
    exact .call may performed
  cases unchecked with
  | read =>
      obtain ⟨-, ended⟩ := here config.world (.refl inv) _ _ fails
      exact (ended config.world (.refl inv)).1
  | owned =>
      obtain ⟨-, ended⟩ := here config.world (.refl inv) _ _ fails
      exact (ended config.world (.refl inv)).1
  | named =>
      obtain ⟨-, ended⟩ := here config.world (.refl inv) _ _ fails
      exact (ended config.world (.refl inv)).1

theorem dead_stays {thread : ι} (unique : Function.Injective system.record)
    (start : FenceRun system (parties.start system) config)
    (run : FenceRun system config config')
    (dead : config.world.status (system.process thread) = .dead)
    : config'.threads (.holder thread) = config.threads (.holder thread)
      ∧ config'.world.status (system.process thread) = .dead := by
  induction run with
  | refl => exact ⟨rfl, dead⟩
  | @tail middle last before step ih =>
      obtain ⟨same, still⟩ := ih
      have grows := ((fence_run_sound unique (start.trans before)).step step).2
      refine ⟨Eq.trans ?_ same, grows.dead still⟩
      cases step with
      | @call other request next reply world at_ performed =>
          refine Function.update_of_ne ?_ ..
          rintro rfl
          cases performed with
          | call may _ => exact may still
          | examine may _ => exact may still

/-- As long as it is off the lock, a directory that was not checked is not released. -/
theorem refusing_run {release : Proc ι P FenceLockRelease}
    (unique : Function.Injective system.record)
    (start : FenceRun system (parties.start system) config)
    (unchecked : Unchecked (system.record self) pin release)
    (at_ : config.threads (.holder self) = closing pin release)
    (may : config.world.status (system.process self) ≠ .dead)
    (off : config.world.tree.names .lock ≠ some pin)
    (run : FenceRun system config config')
    : Retired config'.world pin
      ∧ Refusing (system.record self) pin (config'.threads (.holder self)) := by
  induction run with
  | refl =>
      refine ⟨⟨placed_of_unchecked unique start unchecked at_ may, off⟩, .inl ?_⟩
      exact ⟨release, unchecked, at_⟩
  | @tail middle last before step ih =>
      obtain ⟨retired, refusing⟩ := ih
      have sound := fence_run_sound unique (start.trans before)
      refine ⟨(sound.step step).2.retired retired, ?_⟩
      cases step with
      | @call other request next reply world there performed =>
          by_cases same : Thread.holder self = other
          · subst same
            rw [there] at refusing
            simpa using (refusing.step retired.2 sound.1 performed).2
          · simpa [Function.update_of_ne same] using refusing

/-- A release of the fence, among any others that take, release and clear the lock: its holder
moves and removes no record but its own; whoever entered with the lock keeps it while it lives and
has not left; a release that says so has left the name neither the holder's record nor the
directory that it emptied; and where the directory has left the name before it is checked, nothing
is changed and nothing is said to be released.
-/
theorem fence_release_safe (unique : Function.Injective system.record)
    (run : FenceRun system (parties.start system) config)
    : (∀ {self request next reply w'}, config.threads (.holder self) = .call request next →
        Performs system (.holder self) config.world request reply w' →
        ∀ {inode record}, config.world.tree.owner inode = some record →
          record ≠ system.record self →
          w'.tree.owner inode = some record
            ∧ ∀ name, w'.tree.names name = some inode
              ↔ config.world.tree.names name = some inode)
      ∧ (∀ {self}, config.world.inside self = true → Live system config.world self →
        ∃ inode, config.world.tree.names .lock = some inode
          ∧ config.world.tree.owner inode = some (system.record self))
      ∧ (∀ {self pin}, config.threads (.holder self) = .done (some (.ended pin .released)) →
        ∀ inode, config.world.tree.names .lock = some inode →
          config.world.tree.owner inode ≠ some (system.record self)
            ∧ config.world.latest inode ≠ some (system.record self))
      ∧ ∀ {self pin release}, Unchecked (system.record self) pin release →
        config.threads (.holder self) = closing pin release →
        config.world.tree.names .lock ≠ some pin →
        ∀ {config'}, FenceRun system config config' →
          (∀ {request next reply w'}, config'.threads (.holder self) = .call request next →
            Performs system (.holder self) config'.world request reply w' → w' = config'.world)
          ∧ ∀ {release}, config'.threads (.holder self) = .done (some (.ended pin release)) →
            release ≠ .released := by
  have sound := fence_run_sound unique run
  refine ⟨fun at_ performed _ _ held foreign => foreign_kept unique run at_ performed held foreign,
    fun inside live => sound.1.inside inside live, fun {self pin} ended inode at_ => ?_,
    fun {self pin release} unchecked at_ off config' more => ?_⟩
  · have left : AfterRelease system self pin config.world .released := sound.finished ended
    have latest : config.world.latest inode ≠ some (system.record self) :=
      fun last => (left.2 rfl last).2 at_
    exact ⟨fun held => latest (sound.1.latest held), latest⟩
  · by_cases dead : config.world.status (system.process self) = .dead
    · obtain ⟨same, still⟩ := dead_stays unique run more dead
      refine ⟨fun {request next reply w'} there performed => ?_, fun {release} ended => ?_⟩
      · cases performed with
        | call may _ => exact absurd still may
        | examine may _ => exact absurd still may
      · rw [same, at_] at ended
        cases unchecked <;> cases ended
    · obtain ⟨retired, refusing⟩ := refusing_run unique run unchecked at_ dead off more
      have sound' := fence_run_sound unique (run.trans more)
      refine ⟨fun {request next reply w'} there performed => ?_, fun {release'} ended => ?_⟩
      · rw [there] at refusing
        exact (refusing.step retired.2 sound'.1 performed).1
      · rw [ended] at refusing
        rcases refusing with ⟨release, unchecked, is⟩ | ⟨release, other, is⟩
        · cases unchecked <;> cases is
        · cases is
          exact other

/-- A holder that publishes by rename, and one whose first directory a recoverer removed. -/
def adoption : System Bool Bool where
  record later := if later then "second" else "first"
  process := id
  pathToken := Bool.toNat
  lapses _ := false

def adoptionParties : FenceParties Bool Bool where
  wire later := if later then .mesh else .custody
  procFd := true
  attempts _ := 1
  recoveries number := if number = 0 then [.rmdir] else []
  fates _ := []

/-- The second writer is paused after its mkdir, and goes on when the first one has unlinked its
record.
-/
def adoptionCalls : List (Thread Bool Bool) :=
  .holder true :: .recoverer 0 :: (List.replicate 14 (Thread.holder false)
    ++ List.replicate 4 (Thread.holder true) ++ List.replicate 4 (Thread.holder false))

def adopted : Option (FenceConfig Bool Bool) :=
  Interleaving.execute (decideCall adoption) (adoptionParties.start adoption)
    (adoptionCalls.map (·, none))

theorem adoption_unique : Function.Injective adoption.record := by
  intro first second same
  cases first <;> cases second <;> first | rfl | exact absurd same (by decide)

/-- The first holder released its directory, and the second one holds the lock in it. -/
theorem fence_release_safe_adopted
    : ∃ config, FenceRun adoption (adoptionParties.start adoption) config
      ∧ config.threads (.holder false) = .done (some (.ended 1 .released))
      ∧ config.world.tree.names .lock = some 1
      ∧ config.world.latest 1 ≠ some "first"
      ∧ ∃ inode, config.world.tree.names .lock = some inode
        ∧ config.world.tree.owner inode = some "second" := by
  obtain ⟨config, executed, ended, lock, inside⟩ : ∃ config, adopted = some config
      ∧ config.threads (.holder false) = .done (some (.ended 1 .released))
      ∧ config.world.tree.names .lock = some 1 ∧ config.world.inside true = true
      ∧ config.world.status true = .live := ⟨_, rfl, rfl, rfl, rfl, rfl⟩
  have run : FenceRun adoption (adoptionParties.start adoption) config :=
    Interleaving.run_of_execute (performs_of_decideCall adoption) executed
  obtain ⟨-, kept, released, -⟩ := fence_release_safe adoption_unique run
  refine ⟨config, run, ended, lock, (released ended 1 lock).2, ?_⟩
  exact @kept true inside.1 inside.2

end PiFabric.Locks
