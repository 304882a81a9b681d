import PiFabric.Locks.Custody
import PiFabric.Locks.Recoverers

/-! The custody lock excludes, in whatever order processes acquire, recover and release it, and
whenever they die.
-/

namespace PiFabric.Locks

open Directories (Errno Fault)
open Directories.Tree (Change)
open Interleaving (Prog Protocol Config Run Step)

variable {ι P α : Type} [DecidableEq ι] [DecidableEq P] {system : System ι P}
  {w w' : World ι P} {self : ι} {inode attempt pathToken : Nat} {record : String}
  {custodian : Custodian}

theorem Orphan.later (h : Orphan system w record)
    (later : (protocol system true).Later (.holder self) w w')
    : Orphan system w' record := by
  obtain ⟨author, same, dead⟩ := h
  exact ⟨author, same, later.grows.dead dead⟩

omit [DecidableEq P] in
/-- A call that creates no record leaves a holder between its attempts. -/
theorem Around.left {call : Directories.Call (Name ι) String}
    {tree : Directories.Tree (Name ι) String} (around : Around system self w)
    (inv : Inv system w) (change : Change w.tree call tree)
    (grows : Grows system w (w.left tree)) (other : ∀ name record, call ≠ .create name record)
    : Around system self (w.left tree) :=
  ⟨around.outside, fun last => grows.placed (around.placed (latest_left inv change other last))⟩

section
variable (unique : Function.Injective system.record)
include unique

variable (self) in
theorem sound_readOwner (known : World ι P → String → Prop)
    (stays : ∀ {w w' : World ι P} {owner}, known w owner →
      (protocol system true).Later (.holder self) w w' → known w' owner)
    (reads : ∀ {w' : World ι P} {inode owner},
      (protocol system true).Later (.holder self) w w' →
      w'.tree.names .lock = some inode → w'.tree.owner inode = some owner → known w' owner)
    (around : Around system self w)
    : (protocol system true).Sound (.holder self)
      (fun w' outcome => Around system self w'
        ∧ ∀ owner, outcome = .ok (some owner) → known w' owner)
      readOwner w := by
  refine sound_look unique rfl fun w₁ later₁ _ fault reply tree looked => ?_
  have around₁ := around.later later₁
  cases reply with
  | error error =>
      cases error <;> exact sound_done fun _ later => ⟨around₁.later later, by simp⟩
  | ok owner =>
      obtain ⟨inode, at_, held⟩ := Directories.Tree.owner_of_read looked
      refine sound_done fun w₂ later₂ => ⟨around₁.later later₂, fun found same => ?_⟩
      cases same
      exact stays (reads later₁ at_ held) later₂

theorem sound_sameLock {owner : Option String} (around : Around system self w)
    : (protocol system true).Sound (.holder self)
      (fun w' same => Around system self w' ∧ (same = true → ∀ record, owner = some record →
        Orphan system w record → Doomed system w' inode record))
      (sameLock inode owner) w := by
  refine sound_look unique rfl fun w₁ later₁ _ fault reply tree looked => ?_
  have around₁ := around.later later₁
  cases reply with
  | error error => exact sound_done fun _ later => ⟨around₁.later later, by simp⟩
  | ok current =>
      have at_ := Directories.Tree.names_of_lstat looked
      dsimp only
      split
      · exact sound_done fun _ later => ⟨around₁.later later, by simp⟩
      · next same =>
          have same : current = inode := not_not.mp same
          subst same
          have sole : ∀ record, Orphan system w record → Sole system w₁ current record :=
            fun record orphan => ⟨orphan.later later₁, fun found there _ =>
              Option.some.inj (there.symm.trans at_)⟩
          refine .bind later₁.inv (sound_readOwner self unique
            (fun w' read => Orphan system w read → Doomed system w' current read)
            (fun known later orphan => later.grows.doomed (known orphan)) ?_ around₁) ?_
          · intro w₂ found read later₂ there held orphan
            have sole₂ := later₂.grows.sole (sole read orphan)
            cases sole₂.2 found there held
            exact ⟨sole₂.1, held, .inl there⟩
          · intro w₂ now inv₂ _ known
            cases now with
            | error error => exact sound_done fun w₃ later => ⟨(known w₃ later).1, by simp⟩
            | ok now =>
                refine sound_done fun w₃ later =>
                  ⟨(known w₃ later).1, fun same record is orphan => ?_⟩
                have equal : now = owner := of_decide_eq_true same
                exact (known w₃ later).2 record (by rw [equal, is]) orphan

/-- What a recoverer leaves. -/
def AroundStill (system : System ι P) (self : ι) {β : Type} (w : World ι P) (_ : β) : Prop :=
  Around system self w

variable {owner : String}

theorem sound_fenceLock {unchanged : Bool} {namespace_ token : String} (inv : Inv system w)
    (around : Around system self w) (orphan : Orphan system w owner)
    (judged : (inode, owner) ∈ w.judged)
    : (protocol system true).Sound (.holder self) (AroundStill system self)
      (fenceLock unchanged inode owner namespace_ token) w := by
  refine .bind inv (sound_sameLock unique around) fun w₁ same inv₁ grows known => ?_
  obtain ⟨around₁, doomed⟩ := known w₁ (.refl inv₁)
  have judged₁ := grows.judged _ judged
  cases same with
  | false => exact sound_done fun _ later => around₁.later later
  | true =>
      cases unchanged with
      | false => exact sound_done fun _ later => around₁.later later
      | true =>
          refine sound_fs unique fun w₂ later₂ _ => ?_
          have doomed₂ := later₂.grows.doomed (doomed rfl owner rfl orphan)
          refine ⟨.fence doomed₂ (later₂.grows.judged _ judged₁),
            fun fault reply tree answered kept => ?_⟩
          have around₂ := (around₁.later later₂).left later₂.inv
            (Directories.Tree.respond_change answered) kept.grows (by simp)
          cases reply <;> exact sound_done fun _ later => around₂.later later

omit unique in
/-- What is judged is of a process that is dead. -/
theorem guarantees_judged (unique : Function.Injective system.record) (thread : Thread ι P)
    (inv : Inv system w) (orphan : Orphan system w record)
    : (protocol system true).Guarantees thread w
      { w with judged := (inode, record) :: w.judged } := by
  refine ⟨⟨inv.wf, inv.owned, inv.staging, inv.latest, fun there => ?_, ?_, inv.inside,
    inv.lapsed⟩, ⟨id, id, id, id, id, fun _ => List.mem_cons_of_mem _⟩, ?_⟩
  · obtain ⟨same, last, judged⟩ := inv.fences there
    exact ⟨same, last, List.mem_cons_of_mem _ judged⟩
  · intro found other author member same
    rcases List.mem_cons.mp member with fresh | old
    · cases fresh
      subst same
      exact orphan.not_live unique
    · exact inv.judged old same
  · intro other _
    cases other with
    | holder other =>
        exact ⟨rfl, id, fun _ => List.mem_cons_of_mem _, id, id,
          fun _ there held => ⟨held, .inl there⟩, fun _ _ => id, fun _ => rfl, fun _ => rfl⟩
    | recoverer _ | fate _ => trivial

omit unique in
/-- The record that was read is examined, and the lock is fenced if its process is dead. -/
theorem sound_examine (custodian : Custodian) {rest : Evidence → Proc ι P α}
    {post : World ι P → α → Prop} (written : ∃ author, system.record author = owner)
    (h : ∀ w' evidence, (protocol system true).Later (.holder self) w w' →
      (∀ namespace_ token, judge custodian.number custodian.platform custodian.options owner
        evidence = .dead namespace_ token → Orphan system w' owner) →
      (protocol system true).Sound (.holder self) post (rest evidence) w')
    : (protocol system true).Sound (.holder self) post (ask (.examine owner) >>= rest) w := by
  intro w₁ later evidence left performed
  cases performed with
  | call may performed => cases performed
  | examine may truthful =>
      refine ⟨.of_refl later.inv, h w₁ evidence later fun namespace_ token judged => ?_⟩
      obtain ⟨author, rfl⟩ := written
      exact ⟨author, rfl, (truthful author rfl).of_judge judged⟩

theorem sound_judgeLock (around : Around system self w)
    (written : ∃ author, system.record author = owner)
    : (protocol system true).Sound (.holder self) (AroundStill system self)
      (judgeLock custodian inode owner) w := by
  refine sound_examine custodian written fun w₁ evidence later₁ orphan => ?_
  have around₁ := around.later later₁
  split
  · exact sound_done fun _ later => around₁.later later
  · exact sound_done fun _ later => around₁.later later
  · next namespace_ token dead =>
      intro w₂ later₂ reply left performed
      have orphan₂ := (orphan namespace_ token dead).later later₂
      cases performed with
      | call may performed =>
          cases performed
          have guaranteed := @guarantees_judged _ _ _ _ _ _ inode _ unique (.holder self) later₂.inv orphan₂
          refine ⟨guaranteed, sound_fenceLock unique guaranteed.inv ?_ ?_ List.mem_cons_self⟩
          · have around₂ := around₁.later later₂
            exact ⟨around₂.outside, around₂.placed⟩
          · exact orphan₂

theorem sound_clearDeadCustodyLock (around : Around system self w)
    : (protocol system true).Sound (.holder self) (AroundStill system self)
      (clearDeadCustodyLock custodian) w := by
  refine sound_look unique rfl fun w₁ later₁ _ fault reply tree looked => ?_
  have around₁ := around.later later₁
  cases reply with
  | error error => exact sound_done fun _ later => around₁.later later
  | ok inode =>
      have read := sound_readOwner self unique
        (fun _ owner => ∃ author, system.record author = owner) (fun known _ => known)
        (fun later _ held => later.inv.owned held) around₁
      refine .bind later₁.inv read fun w₂ outcome inv₂ _ known => ?_
      obtain ⟨around₂, written⟩ := known w₂ (.refl inv₂)
      cases outcome with
      | error error => exact sound_done fun _ later => around₂.later later
      | ok owner =>
          dsimp only
          split
          · refine .bind inv₂ (sound_sameLock unique around₂) fun w₃ same _ _ known => ?_
            exact sound_done fun _ later => (known _ later).1
          · cases owner with
            | none => exact sound_done fun _ later => around₂.later later
            | some owner =>
                exact sound_judgeLock unique around₂ (written owner rfl)

/-- A call that creates nothing, of a holder between its attempts. -/
theorem sound_fs_around {call : Directories.Call (Name ι) String}
    {next : Directories.Reply call → Proc ι P α} {post : World ι P → α → Prop}
    (around : Around system self w) (other : ∀ name record, call ≠ .create name record)
    (fair : ∀ w', (protocol system true).Later (.holder self) w w' →
      w'.status (system.process self) ≠ .dead → Fair system true w' self call)
    (rest : ∀ w' reply, Inv system w' → Around system self w' →
      (protocol system true).Sound (.holder self) post (next reply) w')
    : (protocol system true).Sound (.holder self) post (fs call >>= next) w := by
  refine sound_fs unique fun w₁ later may => ⟨fair w₁ later may, fun _ reply tree answered kept => ?_⟩
  exact rest _ reply kept.inv ((around.later later).left later.inv
    (Directories.Tree.respond_change answered) kept.grows other)

/-- Its record is at the lock for as long as the holder lives. -/
def AtLock (system : System ι P) (self : ι) (w : World ι P) : Prop :=
  Live system w self → ∃ inode, w.tree.names .lock = some inode
    ∧ w.tree.owner inode = some (system.record self)

omit unique in
theorem AtLock.later (h : AtLock system self w)
    (later : (protocol system true).Later (.holder self) w w')
    : AtLock system self w' := by
  intro live
  have rely : Rely system true self w w' := later.rely
  obtain ⟨inode, at_, held⟩ := h (rely.live live)
  obtain ⟨owner, stays | ⟨-, lost, -⟩⟩ := rely.kept (by trivial) at_ held
  · exact ⟨inode, stays, owner⟩
  · exact absurd live lost

theorem sound_rmSync_private {name : Name ι} (around : Around system self w)
    (own : name.own true self)
    : (protocol system true).Sound (.holder self) (AroundStill system self) (rmSync name) w := by
  refine sound_fs_around unique around (by simp) (fun _ _ _ => .unlink own)
    fun w₁ reply _ around₁ => ?_
  cases forced reply with
  | error error => exact sound_done fun _ later => around₁.later later
  | ok value =>
      exact sound_fs_around unique around₁ (by simp) (fun _ _ _ => .rmdir (.inr own))
        fun w₂ reply _ around₂ => sound_done fun _ later => around₂.later later

section
variable (steady : ∀ process, system.lapses process = false)
include steady

omit [DecidableEq ι] [DecidableEq P] unique in
theorem live_of_may (inv : Inv system w) (may : w.status (system.process self) ≠ .dead)
    : Live system w self := by
  unfold Live
  cases now : w.status (system.process self) with
  | live => rfl
  | lapsed => exact absurd ((inv.lapsed now).symm.trans (steady _)) (by simp)
  | dead => exact absurd now may

omit unique in
/-- What is at the lock with its record, a living holder may detach. -/
theorem fair_detach {target : Name ι} (private_ : ¬target.shared) (around : Around system self w)
    (atLock : AtLock system self w) (later : (protocol system true).Later (.holder self) w w')
    (may : w'.status (system.process self) ≠ .dead)
    : Fair system true w' self (.rename .lock target) := by
  obtain ⟨inode, at_, held⟩ := atLock.later later (live_of_may steady later.inv may)
  exact .detach rfl private_ (around.later later).outside at_ held

theorem sound_verifiedRemove {judged : Nat} (around : Around system self w)
    (atLock : AtLock system self w)
    : (protocol system true).Sound (.holder self) (AroundStill system self)
      (verifiedRemove self judged) w := by
  refine sound_look unique rfl fun w₁ later₁ _ fault reply tree looked => ?_
  have around₁ := around.later later₁
  cases reply with
  | error error => exact sound_done fun _ later => around₁.later later
  | ok found =>
      dsimp only
      split
      · exact sound_done fun _ later => around₁.later later
      · refine sound_fs_around unique around₁ (by simp)
          (fun _ later may => fair_detach steady id around₁ (atLock.later later₁) later may)
          fun w₂ reply inv₂ around₂ => ?_
        cases reply with
        | error error => exact sound_done fun _ later => around₂.later later
        | ok value =>
            refine sound_look unique rfl fun w₃ later₃ _ fault reply tree looked => ?_
            have around₃ := around₂.later later₃
            cases reply with
            | error error => exact sound_done fun _ later => around₃.later later
            | ok moved =>
                dsimp only
                split
                · exact sound_done fun _ later => around₃.later later
                · refine .bind later₃.inv (sound_rmSync_private unique around₃ rfl)
                    fun w₄ _ _ _ known => ?_
                  exact sound_done fun _ later => known _ later

theorem sound_detach (around : Around system self w) (atLock : AtLock system self w)
    : (protocol system true).Sound (.holder self) (AroundStill system self)
      (detach pathToken) w := by
  refine sound_fs_around unique around (by simp)
    (fun _ later may => fair_detach steady id around atLock later may)
    fun w₁ reply inv₁ around₁ => ?_
  cases reply with
  | error error => exact sound_done fun _ later => around₁.later later
  | ok value =>
      refine .bind inv₁ (sound_rmSync_private unique around₁ rfl) fun w₂ _ _ _ known => ?_
      exact sound_done fun _ later => known _ later

theorem sound_releaseByName {platform : Platform} (around : Around system self w)
    : (protocol system true).Sound (.holder self) (AroundStill system self)
      (releaseByName platform self (system.record self) pathToken) w := by
  refine sound_look unique rfl fun w₁ later₁ _ fault reply tree looked => ?_
  have around₁ := around.later later₁
  cases reply with
  | error error => exact sound_done fun _ later => around₁.later later
  | ok judged =>
      have read := sound_readOwner self unique
        (fun w' owner => owner = system.record self → AtLock system self w')
        (fun known later own => (known own).later later)
        (fun _ at_ held own _ => ⟨_, at_, own ▸ held⟩) around₁
      refine .bind later₁.inv read fun w₂ outcome inv₂ _ known => ?_
      obtain ⟨around₂, atLock⟩ := known w₂ (.refl inv₂)
      cases outcome with
      | error error => exact sound_done fun _ later => around₂.later later
      | ok owner =>
          dsimp only
          split
          · exact sound_done fun _ later => around₂.later later
          · next own =>
              have own : owner = some (system.record self) := not_not.mp own
              have atLock := atLock _ (by rw [own]) rfl
              split
              · exact sound_verifiedRemove unique steady around₂ atLock
              · exact sound_detach unique steady around₂ atLock

theorem sound_releaseAgain {platform : Platform} (times : Nat) (inv : Inv system w)
    (around : Around system self w)
    : (protocol system true).Sound (.holder self) (AroundStill system self)
      (releaseAgain platform self (system.record self) pathToken times) w := by
  induction times generalizing w with
  | zero => exact sound_done fun _ later => around.later later
  | succ times ih =>
      refine .bind inv (sound_releaseByName unique steady around) fun w₁ _ inv₁ _ known => ?_
      exact ih inv₁ (known w₁ (.refl inv₁))

/-- What an acquisition returns: the lock, which was published and pinned, or nothing. -/
def Acquired (system : System ι P) (self : ι) (w : World ι P) : Except Refusal Pin → Prop
  | .ok pin => ∃ inode, PinnedAt system self inode w pin
  | .error _ => True

theorem sound_abandon (inv : Inv system w) (around : Around system self w)
    : (protocol system true).Sound (.holder self) (Acquired system self)
      (pinCustody.abandon custodian self (system.record self) pathToken) w := by
  have read := sound_readOwner self unique (fun _ _ => True) (fun _ _ => trivial)
    (fun _ _ _ => trivial) around
  refine .bind inv read fun w₁ outcome inv₁ _ known => ?_
  obtain ⟨around₁, -⟩ := known w₁ (.refl inv₁)
  cases outcome with
  | error error => exact sound_done fun _ _ => trivial
  | ok owner =>
      dsimp only
      split
      · refine .bind inv₁ (sound_releaseByName unique steady around₁) fun w₂ _ _ _ _ => ?_
        exact sound_done fun _ _ => trivial
      · exact sound_done fun _ _ => trivial

theorem sound_pinCustody (inv : Inv system w) (published : Published system self false inode w)
    : (protocol system true).Sound (.holder self) (Acquired system self)
      (pinCustody custodian self (system.record self) pathToken) w := by
  refine .bind inv (sound_pinFenceLock unique published) fun w₁ pin inv₁ _ known => ?_
  obtain ⟨published₁, same⟩ := known w₁ (.refl inv₁)
  cases pin with
  | pinned pin => exact sound_done fun _ later => ⟨inode, published₁.later later, same⟩
  | foreign => exact sound_abandon unique steady inv₁ published₁.around
  | unpinned =>
      dsimp only
      split
      · exact sound_abandon unique steady inv₁ published₁.around
      · exact sound_done fun _ later => ⟨inode, published₁.later later, by simp⟩

omit steady in
theorem sound_timedOut {note : Option StaleLockNote} (inv : Inv system w) (around : Around system self w)
    : (protocol system true).Sound (.holder self) (fun _ _ => True)
      (timedOut note) w := by
  refine .bind inv (sound_readOwner self unique (fun _ _ => True) (fun _ _ => trivial)
    (fun _ _ _ => trivial) around) fun _ _ _ _ _ => ?_
  cases note <;> exact sound_done fun _ _ => trivial

theorem sound_acquireMeshCustodyLock (attempts : Nat) (around : Around system self w)
    : (protocol system true).Sound (.holder self) (Acquired system self)
      (acquireMeshCustodyLock custodian self (system.record self) pathToken attempts) w := by
  induction attempts generalizing w with
  | zero => exact sound_done fun _ _ => trivial
  | succ attempts ih =>
      refine sound_fs unique fun w₁ later₁ _ =>
        ⟨.mkdir (.inr ⟨attempts, rfl⟩), fun fault reply tree answered kept => ?_⟩
      cases reply with
      | error error => exact sound_done fun _ _ => trivial
      | ok value =>
          obtain ⟨staged, -⟩ := (around.later later₁).made later₁.inv kept.grows answered
          refine sound_publishStaged unique kept.inv staged
            (fun w₂ inv₂ published => sound_pinCustody unique steady inv₂ published)
            (fun w₂ failure inv₂ around₂ => ?_) fun _ _ => trivial
          have again : (protocol system true).Sound (.holder self) (Acquired system self)
              (retryAcquire custodian attempts
                (acquireMeshCustodyLock custodian self (system.record self) pathToken attempts))
              w₂ := by
            refine .bind inv₂ (sound_clearDeadCustodyLock unique around₂)
              fun w₃ cleared inv₃ _ known => ?_
            have around₃ := known w₃ (.refl inv₃)
            cases cleared with
            | unrecoverable => exact sound_done fun _ _ => trivial
            | recovered => exact ih around₃
            | kept note =>
                dsimp only
                split
                · refine .bind inv₃ (sound_timedOut unique inv₃ around₃) fun w₄ _ _ _ _ => ?_
                  exact sound_done fun _ _ => trivial
                · exact ih around₃
          dsimp only
          cases failure.code with
          | enoent | eio => exact sound_done fun _ _ => trivial
          | eexist | enotempty | eperm | eacces => exact again

theorem sound_holdMeshCustody (attempts releases : Nat) (inv : Inv system w)
    (around : Around system self w)
    : (protocol system true).Sound (.holder self) (fun _ _ => True)
      (holdMeshCustody custodian self (system.record self) pathToken attempts releases) w := by
  refine .bind inv (sound_acquireMeshCustodyLock unique steady attempts around)
    fun w₁ outcome inv₁ _ known => ?_
  cases outcome with
  | error refusal => exact sound_done fun _ _ => trivial
  | ok pin =>
      obtain ⟨inode, published, same⟩ := known w₁ (.refl inv₁)
      refine sound_enter published fun w₂ _ entered => ?_
      refine sound_leave entered fun w₃ inv₃ outside => ?_
      have again : (protocol system true).Sound (.holder self) (fun _ _ => True)
          (releaseAgain custodian.platform self (system.record self) pathToken releases
            >>= fun _ => pure CustodyOutcome.byName) w₃ := by
        refine .bind inv₃ (sound_releaseAgain unique steady releases inv₃ outside.around)
          fun _ _ _ _ _ => ?_
        exact sound_done fun _ _ => trivial
      cases pin with
      | pinned pin =>
          cases same pin rfl
          refine .bind inv₃ (sound_releaseFenceLock unique outside) fun _ _ _ _ _ => ?_
          exact sound_done fun _ _ => trivial
      | unpinned | foreign => exact again

end

end

variable {parties : CustodyParties ι P} {config : CustodyConfig ι P}

theorem custody_allSound (unique : Function.Injective parties.system.record)
    : (protocol parties.system true).AllSound (fun _ _ _ => True) parties.start := by
  have inv := Inv.start parties.system
  refine ⟨inv, fun thread => ?_⟩
  cases thread with
  | holder self =>
      refine .map (sound_holdMeshCustody unique (fun _ => rfl) _ _ inv ?_)
      exact .start parties.system self
  | recoverer number => exact fun _ _ => trivial
  | fate process => exact .map (sound_befall _ _)

theorem custody_run_sound (unique : Function.Injective parties.system.record)
    (run : CustodyRun parties parties.start config)
    : (protocol parties.system true).AllSound (fun _ _ _ => True) config :=
  ((custody_allSound unique).run run).1

omit [DecidableEq ι] [DecidableEq P] in
theorem orphan_of_judged (inv : Inv parties.system w) (judged : (inode, record) ∈ w.judged)
    (author : ∃ self, parties.system.record self = record)
    : Orphan parties.system w record := by
  obtain ⟨self, same⟩ := author
  refine ⟨self, same, ?_⟩
  cases now : w.status (parties.system.process self) with
  | dead => rfl
  | live => exact absurd now (inv.judged judged same)
  | lapsed => exact absurd (inv.lapsed now) (by simp [CustodyParties.system])

variable {thread : Thread ι P}

theorem judged_or_same {request : Call ι P}
    {next : Reply request → Proc ι P (Option CustodyOutcome)} {reply : Reply request}
    (run : CustodyRun parties parties.start config)
    (at_ : config.threads thread = .call request next)
    (performed : Performs parties.system thread config.world request reply w')
    : w'.judged = config.world.judged ∨ w'.tree = config.world.tree := by
  cases performed with
  | examine may truthful => exact .inl rfl
  | @call _ fault _ _ may performed =>
      cases request with
      | fs call =>
          cases performed
          exact .inl rfl
      | enter | leave =>
          cases thread with
          | holder self =>
              cases performed
              exact .inl rfl
          | recoverer _ | fate _ => cases performed
      | examine owner => cases performed
      | judged inode owner =>
          cases performed
          exact .inr rfl
      | recover owner =>
          cases thread with
          | holder self => cases performed
          | fate process => cases performed
          | recoverer number =>
              have ended : parties.start.threads (.recoverer number) = .done none := rfl
              exact absurd ((run.done ended).symm.trans at_) (by simp)
      | lapse process =>
          simp only [World.perform] at performed
          split at performed <;> cases performed <;> exact .inl rfl
      | exit process =>
          cases performed
          exact .inl rfl

/-- What changes at the lock while it holds a record, its holder changed, or it was judged dead. -/
theorem lock_kept (unique : Function.Injective parties.system.record) {request : Call ι P}
    {next : Reply request → Proc ι P (Option CustodyOutcome)} {reply : Reply request}
    (run : CustodyRun parties parties.start config)
    (at_ : config.threads thread = .call request next)
    (performed : Performs parties.system thread config.world request reply w')
    (there : config.world.tree.names .lock = some inode)
    (held : config.world.tree.owner inode = some record)
    (foreign : ∀ self, thread = .holder self → record ≠ parties.system.record self)
    : w'.tree.owner inode = some record
      ∧ (w'.tree.names .lock = some inode
        ∨ (inode, record) ∈ config.world.judged ∧ Orphan parties.system config.world record) := by
  have sound := custody_run_sound unique run
  have inv := sound.1
  have here := sound.2 thread
  rw [at_] at here
  obtain ⟨guaranteed, -⟩ := here config.world (.refl inv) reply w' performed
  obtain ⟨author, rfl⟩ := inv.owned held
  have apart : Thread.holder author ≠ thread := fun same => foreign author same.symm rfl
  have rely : Rely parties.system true author config.world w' := guaranteed.others _ apart
  obtain ⟨owner, stays | ⟨-, -, judged, -⟩⟩ := rely.kept (by trivial) there held
  · exact ⟨owner, .inl stays⟩
  · refine ⟨owner, ?_⟩
    rcases judged_or_same run at_ performed with same | same
    · rw [same] at judged
      exact .inr ⟨judged, orphan_of_judged inv judged ⟨author, rfl⟩⟩
    · exact .inl (same ▸ there)

theorem change_of_performs {call : Directories.Call (Name ι) String}
    {reply : Reply (.fs call : Call ι P)} (performed : Performs system thread w (.fs call) reply w')
    : ∃ tree, Change w.tree call tree ∧ w' = w.left tree := by
  cases performed with
  | call may performed =>
      cases performed
      exact ⟨_, Directories.Tree.respond_change rfl, rfl⟩

/-- A rename to a fence moves the directory that the fence is named after, or nothing. -/
theorem fence_moves (unique : Function.Injective parties.system.record)
    {next : Reply (.fs (.rename .lock (.dead inode (some record))))
      → Proc ι P (Option CustodyOutcome)}
    {reply : Reply (.fs (.rename .lock (.dead inode (some record))))}
    (run : CustodyRun parties parties.start config) (at_ : config.threads thread = .call _ next)
    (performed : Performs parties.system thread config.world _ reply w')
    : w'.tree.names .lock = config.world.tree.names .lock
      ∨ config.world.tree.names .lock = some inode ∧ config.world.latest inode = some record
        ∧ (inode, record) ∈ config.world.judged := by
  have sound := custody_run_sound unique run
  have here := sound.2 thread
  rw [at_] at here
  obtain ⟨guaranteed, -⟩ := here config.world (.refl sound.1) reply w' performed
  obtain ⟨tree, change, rfl⟩ := change_of_performs performed
  cases change with
  | none => exact .inl rfl
  | @moved _ _ found there apart bare =>
      obtain ⟨same, last, judged⟩ := guaranteed.inv.fences
        (config.world.tree.moved_target .lock (.dead inode (some record)) found)
      cases same
      have unchanged : (config.world.left
          (config.world.tree.moved .lock (.dead inode (some record)) inode)).latest
            = config.world.latest := sound.1.latest_left rfl
      exact .inr ⟨there, unchanged ▸ last, judged⟩

/-- Two live holders are never both between their acquire and their release. While the lock holds
a record, nobody but its holder moves or removes it, unless it was judged dead, and then it was. A
recoverer moves the lock that it judged, however long it was paused, or none.
-/
theorem custody_lock_excludes (unique : Function.Injective parties.system.record)
    (run : CustodyRun parties parties.start config)
    : (∀ {first second}, config.world.inside first = true → config.world.inside second = true →
        Live parties.system config.world first → Live parties.system config.world second →
        first = second)
      ∧ (∀ {thread request next reply w' inode record},
        config.threads thread = .call request next →
        Performs parties.system thread config.world request reply w' →
        config.world.tree.names .lock = some inode →
        config.world.tree.owner inode = some record →
        (∀ self, thread = .holder self → record ≠ parties.system.record self) →
        w'.tree.owner inode = some record
          ∧ (w'.tree.names .lock = some inode
            ∨ (inode, record) ∈ config.world.judged ∧ Orphan parties.system config.world record))
      ∧ ∀ {thread inode record next w'}
          {reply : Reply (.fs (.rename .lock (.dead inode (some record))) : Call ι P)},
        config.threads thread = .call (.fs (.rename .lock (.dead inode (some record)))) next →
        Performs parties.system thread config.world _ reply w' →
        w'.tree.names .lock = config.world.tree.names .lock
          ∨ config.world.tree.names .lock = some inode ∧ config.world.latest inode = some record
            ∧ (inode, record) ∈ config.world.judged := by
  have inv := (custody_run_sound unique run).1
  refine ⟨fun {first second} inside inside' live live' => ?_,
    fun at_ performed there held foreign => lock_kept unique run at_ performed there held foreign,
    fun at_ performed => fence_moves unique run at_ performed⟩
  obtain ⟨inode, there, held⟩ := inv.inside inside live
  obtain ⟨inode', there', held'⟩ := inv.inside inside' live'
  cases there.symm.trans there'
  exact unique (Option.some.inj (held.symm.trans held'))

def replacing : CustodyParties Bool Bool where
  custodian _ := ⟨.linux, true, {}, fun _ => none⟩
  author later := ⟨if later then "second" else "first", 1, 1, none, none, none, none⟩
  process := id
  pathToken := Bool.toNat
  attempts _ := 1
  releases _ := 0

/-- The second holder is about to publish when the first one takes the lock. -/
def entering : List (Thread Bool Bool) :=
  List.replicate 3 (.holder true) ++ List.replicate 9 (.holder false)

def entered : Option (CustodyConfig Bool Bool) :=
  Interleaving.execute (decideCall replacing.system) replacing.start (entering.map (·, none))

theorem replacing_unique : Function.Injective replacing.system.record := by
  intro first second same
  cases first <;> cases second <;> first | rfl | exact absurd same (by decide +kernel)

/-- The first holder is inside, and nobody else can be. -/
theorem custody_lock_excludes_entered
    : ∃ config, CustodyRun replacing replacing.start config ∧ config.world.inside false = true
      ∧ ∀ other, config.world.inside other = true → Live replacing.system config.world other →
        false = other := by
  obtain ⟨config, executed, inside, live⟩ : ∃ config, entered = some config
      ∧ config.world.inside false = true ∧ config.world.status false = .live := ⟨_, rfl, rfl, rfl⟩
  have run : CustodyRun replacing replacing.start config :=
    Interleaving.run_of_execute (performs_of_decideCall replacing.system) executed
  exact ⟨config, run, inside, fun other inside' live' =>
    (custody_lock_excludes replacing_unique run).1 inside inside' live live'⟩

/-- The first holder has unlinked its record, but not removed its directory. -/
def emptied : Option (CustodyConfig Bool Bool) :=
  Interleaving.execute (decideCall replacing.system) replacing.start
    ((entering ++ List.replicate 5 (Thread.holder false)).map (·, none))

/-- A lock whose record its holder has unlinked can be replaced by somebody else. -/
theorem custody_lock_replaced
    : ¬∀ {parties : CustodyParties Bool Bool} {config : CustodyConfig Bool Bool}
          {thread request next reply w' inode record}, Function.Injective parties.system.record →
        CustodyRun parties parties.start config → config.threads thread = .call request next →
        Performs parties.system thread config.world request reply w' →
        config.world.tree.names .lock = some inode → config.world.latest inode = some record →
        (∀ self, thread = .holder self → record ≠ parties.system.record self) →
        w'.tree.names .lock = some inode ∨ (inode, record) ∈ config.world.judged := by
  intro claim
  obtain ⟨config, executed, next, at_, there, last, judged, live, gone⟩ : ∃ config,
      emptied = some config
        ∧ ∃ next, config.threads (.holder true)
            = .call (.fs (.rename (.staging true 0) .lock)) next
          ∧ config.world.tree.names .lock = some 1
          ∧ config.world.latest 1 = some (replacing.system.record false)
          ∧ config.world.judged = []
          ∧ config.world.status true = .live
          ∧ (config.world.tree.respond (.rename (.staging true 0) .lock) none).2.names .lock
            = some 0 := ⟨_, rfl, _, rfl, rfl, rfl, rfl, rfl, rfl⟩
  have run : CustodyRun replacing replacing.start config :=
    Interleaving.run_of_execute (performs_of_decideCall replacing.system) executed
  have may : config.world.mayCall replacing.system (.holder true) := by
    intro dead
    exact absurd (live.symm.trans dead) (by simp)
  have performed : Performs replacing.system (.holder true) config.world
      (.fs (.rename (.staging true 0) .lock)) _ _ := @Performs.call _ _ _ _ _ _ _ _ none _ _ may rfl
  have foreign : ∀ self, Thread.holder (P := Bool) true = .holder self →
      replacing.system.record false ≠ replacing.system.record self := by
    rintro _ ⟨⟩ same
    exact absurd (replacing_unique same) (by simp)
  rcases claim replacing_unique run at_ performed there last foreign with stays | doomed
  · exact absurd (gone.symm.trans stays) (by simp)
  · rw [judged] at doomed
    cases doomed

end PiFabric.Locks
