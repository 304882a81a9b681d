import PiFabric.Locks.Rules

/-! What a holder knows while it takes and releases the lock, and that its programs keep it.
-/

namespace PiFabric.Locks

open Directories (Errno Fault)
open Directories.Tree (Change)
open Interleaving (Prog Protocol)

variable {ι P α : Type} [DecidableEq ι] [DecidableEq P] {system : System ι P}
  {w w' : World ι P} {self : ι} {inode pin attempt : Nat} {inside byName : Bool}

/-- Between its attempts no directory with its record will ever be published. -/
structure Around (system : System ι P) (holder : ι) (w : World ι P) : Prop where
  outside : w.inside holder = false
  placed : ∀ {inode}, w.latest inode = some (system.record holder) → Placed w inode

/-- Its directory is in staging. -/
structure Staged (system : System ι P) (holder : ι) (attempt inode : Nat) (w : World ι P)
    : Prop where
  outside : w.inside holder = false
  at_ : w.tree.names (.staging holder attempt) = some inode
  placed : ∀ {found}, w.latest found = some (system.record holder) →
    found = inode ∨ Placed w found

/-- Its directory was published with its record, and is at the lock while it lives. -/
structure Published (system : System ι P) (holder : ι) (inside : Bool) (inode : Nat)
    (w : World ι P) : Prop where
  inside : w.inside holder = inside
  owner : w.tree.owner inode = some (system.record holder)
  placed : Placed w inode
  retired : ∀ {found}, w.latest found = some (system.record holder) →
    found = inode ∨ Retired w found
  at_ : w.tree.names .lock = some inode
    ∨ ¬Live system w holder ∧ w.tree.names (.dead inode (some (system.record holder))) = some inode

/-- Its record was unlinked from its directory. -/
structure Emptied (system : System ι P) (holder : ι) (inode : Nat) (w : World ι P) : Prop where
  placed : Placed w inode
  retired : ∀ {found}, w.latest found = some (system.record holder) →
    found = inode ∨ Retired w found

/-- No directory that last held its record is at the lock, or will be. -/
def Over (system : System ι P) (self : ι) (w : World ι P) : Prop :=
  ∀ {found}, w.latest found = some (system.record self) → Retired w found

theorem Around.later (h : Around system self w)
    (later : (protocol system byName).Later (.holder self) w w')
    : Around system self w' := by
  have rely : Rely system byName self w w' := later.rely
  exact ⟨rely.inside.trans h.outside, fun last => later.grows.placed (h.placed (rely.latest last))⟩

theorem Staged.later (h : Staged system self attempt inode w)
    (later : (protocol system byName).Later (.holder self) w w')
    : Staged system self attempt inode w' := by
  have rely : Rely system byName self w w' := later.rely
  refine ⟨rely.inside.trans h.outside, (rely.staging _).trans h.at_, fun last => ?_⟩
  exact (h.placed (rely.latest last)).imp id later.grows.placed

theorem Published.later (h : Published system self inside inode w)
    (later : (protocol system byName).Later (.holder self) w w')
    : Published system self inside inode w' := by
  have rely : Rely system byName self w w' := later.rely
  have retired : ∀ {found}, w'.latest found = some (system.record self) →
      found = inode ∨ Retired w' found :=
    fun last => (h.retired (rely.latest last)).imp id later.grows.retired
  have insideNow := rely.inside.trans h.inside
  have placed := later.grows.placed h.placed
  rcases h.at_ with lock | ⟨lost, fence⟩
  · obtain ⟨owner, stays | ⟨-, lost, -, moved⟩⟩ := rely.kept (by trivial) lock h.owner
    · exact ⟨insideNow, owner, placed, retired, .inl stays⟩
    · exact ⟨insideNow, owner, placed, retired, .inr ⟨lost, moved⟩⟩
  · obtain ⟨owner, stays | ⟨wrong, -⟩⟩ := rely.kept (by trivial) fence h.owner
    · exact ⟨insideNow, owner, placed, retired, .inr ⟨fun live => lost (rely.live live), stays⟩⟩
    · cases wrong

theorem Emptied.later (h : Emptied system self inode w)
    (later : (protocol system byName).Later (.holder self) w w')
    : Emptied system self inode w' := by
  have rely : Rely system byName self w w' := later.rely
  refine ⟨later.grows.placed h.placed, fun last => ?_⟩
  exact (h.retired (rely.latest last)).imp id later.grows.retired

theorem Over.later (h : Over system self w)
    (later : (protocol system byName).Later (.holder self) w w')
    : Over system self w' := by
  intro found last
  have rely : Rely system byName self w w' := later.rely
  exact later.grows.retired (h (rely.latest last))

omit [DecidableEq ι] [DecidableEq P] in
theorem Around.start (system : System ι P) (self : ι) : Around system self (World.start ι P) :=
  ⟨rfl, fun last => nomatch last⟩

omit [DecidableEq ι] [DecidableEq P] in
theorem Published.around (h : Published system self false inode w) : Around system self w := by
  refine ⟨h.inside, fun last => ?_⟩
  rcases h.retired last with rfl | retired
  · exact h.placed
  · exact retired.1

omit [DecidableEq ι] [DecidableEq P] in
/-- A live holder's directory is at the lock. -/
theorem Published.lock (h : Published system self inside inode w) (live : Live system w self)
    : w.tree.names .lock = some inode :=
  h.at_.resolve_right fun lost => lost.1 live

omit [DecidableEq ι] [DecidableEq P] in
theorem Inv.left_self (inv : Inv system w) : w.left w.tree = w := by
  have latest : (fun inode => (w.tree.owner inode).or (w.latest inode)) = w.latest := by
    funext inode
    cases held : w.tree.owner inode with
    | none => rfl
    | some record => exact (inv.latest held).symm
  simp only [World.left, latest]

omit [DecidableEq ι] [DecidableEq P] in
theorem Inv.latest_left (inv : Inv system w) {tree : Directories.Tree (Name ι) String}
    (same : tree.owner = w.tree.owner)
    : (w.left tree).latest = w.latest := by
  simpa [World.left, same] using congrArg World.latest inv.left_self

section
variable {call : Directories.Call (Name ι) String} {tree : Directories.Tree (Name ι) String}
  {fault : Option Fault} {reply : Directories.Reply call}

omit [DecidableEq P] in
theorem left_of_error (inv : Inv system w) {error : Errno}
    (h : w.tree.respond call fault = (.error error, tree))
    : w.left tree = w := by
  rw [Directories.Tree.respond_error h, inv.left_self]

omit [DecidableEq P] in
theorem left_of_looks (inv : Inv system w) (looks : call.looks = true)
    (h : w.tree.respond call fault = (reply, tree))
    : w.left tree = w := by
  rw [Directories.Tree.respond_looks looks h, inv.left_self]

omit [DecidableEq P] in
/-- The last record of a directory is the one it had, or one that was just created in it. -/
theorem latest_new (inv : Inv system w) (change : Change w.tree call tree) {record : String}
    (last : (w.left tree).latest inode = some record)
    : w.latest inode = some record
      ∨ ∃ name, call = .create name record ∧ w.tree.names name = some inode := by
  cases held : tree.owner inode with
  | none =>
      simp only [World.left, held, Option.none_or] at last
      exact .inl last
  | some found =>
      simp only [World.left, held, Option.some_or, Option.some.injEq] at last
      subst last
      rcases change.owner_new held with old | ⟨name, is, at_, -⟩
      · exact .inl (inv.latest old)
      · exact .inr ⟨name, is, at_⟩

omit [DecidableEq P] in
theorem latest_left (inv : Inv system w) (change : Change w.tree call tree)
    (other : ∀ name record, call ≠ .create name record) {record : String}
    (last : (w.left tree).latest inode = some record)
    : w.latest inode = some record :=
  (latest_new inv change last).resolve_right fun ⟨name, is, _⟩ => other name record is

end

section
variable (unique : Function.Injective system.record) {post : World ι P → α → Prop}
include unique

theorem sound_fs {call : Directories.Call (Name ι) String}
    {next : Directories.Reply call → Proc ι P α}
    (h : ∀ w', (protocol system byName).Later (.holder self) w w' →
      w'.status (system.process self) ≠ .dead →
      Fair system byName w' self call ∧ ∀ fault (reply : Directories.Reply call) tree,
        w'.tree.respond call fault = (reply, tree) →
        (protocol system byName).Guarantees (.holder self) w' (w'.left tree) →
        (protocol system byName).Sound (.holder self) post (next reply) (w'.left tree))
    : (protocol system byName).Sound (.holder self) post (fs call >>= next) w := by
  intro w' later reply left performed
  cases performed with
  | @call _ fault _ _ may performed =>
      obtain ⟨fair, rest⟩ := h w' later may
      simp only [World.perform, Option.some.injEq] at performed
      cases answered : w'.tree.respond call fault with
      | mk reply' tree =>
          rw [answered] at performed
          cases performed
          have guaranteed := fair.guarantees unique later.inv may
            (Directories.Tree.respond_change answered)
          exact ⟨guaranteed, rest fault reply' tree answered guaranteed⟩

/-- A call that only looks leaves the world. -/
theorem sound_look {call : Directories.Call (Name ι) String}
    {next : Directories.Reply call → Proc ι P α} (looks : call.looks = true)
    (h : ∀ w', (protocol system byName).Later (.holder self) w w' →
      w'.status (system.process self) ≠ .dead →
      ∀ fault (reply : Directories.Reply call) tree,
        w'.tree.respond call fault = (reply, tree) →
          (protocol system byName).Sound (.holder self) post (next reply) w')
    : (protocol system byName).Sound (.holder self) post (fs call >>= next) w := by
  refine sound_fs unique fun w' later may => ⟨.looks looks, fun fault reply tree answered _ => ?_⟩
  rw [left_of_looks later.inv looks answered]
  exact h w' later may fault reply tree answered

omit unique in
theorem sound_done {value : α}
    (h : ∀ w', (protocol system byName).Later (.holder self) w w' → post w' value)
    : (protocol system byName).Sound (.holder self) post (pure value) w :=
  h

omit unique [DecidableEq P] in
theorem Staged.unlinked {fault : Option Fault} {reply : Except Errno Unit}
    {tree : Directories.Tree (Name ι) String} (staged : Staged system self attempt inode w)
    (inv : Inv system w) (grows : Grows system w (w.left tree))
    (answered : w.tree.respond (.unlink (.staging self attempt)) fault = (reply, tree))
    : Staged system self attempt inode (w.left tree) := by
  have change := Directories.Tree.respond_change answered
  refine ⟨staged.outside, (change.names_frame id).trans staged.at_, fun last => ?_⟩
  exact (staged.placed (latest_left inv change (by simp) last)).imp id grows.placed

omit unique [DecidableEq P] in
/-- What was removed was not published and will not be. -/
theorem Staged.removed {fault : Option Fault} {reply : Except Errno Unit}
    {tree : Directories.Tree (Name ι) String} (staged : Staged system self attempt inode w)
    (inv : Inv system w) (grows : Grows system w (w.left tree))
    (answered : w.tree.respond (.rmdir (.staging self attempt)) fault = (reply, tree))
    (removed : reply = .ok () ∨ reply = .error .enoent)
    : Around system self (w.left tree) := by
  have change := Directories.Tree.respond_change answered
  have free := Directories.Tree.free_of_rmdir answered removed
  have placed : Placed (w.left tree) inode := by
    refine ⟨(inv.wf.bound staged.at_).trans_le change.next_le, fun holder number there => ?_⟩
    rcases change.name_new there with before | ⟨wrong, -⟩ | ⟨source, wrong, -⟩
    · cases inv.wf.names before staged.at_
      exact absurd (free.symm.trans there) (by simp)
    · cases wrong
    · cases wrong
  refine ⟨staged.outside, fun last => ?_⟩
  rcases staged.placed (latest_left inv change (by simp) last) with rfl | settled
  · exact placed
  · exact grows.placed settled

omit [DecidableEq ι] [DecidableEq P] unique in
theorem forced_ok {reply : Except Errno Unit} (h : forced reply = .ok ())
    : reply = .ok () ∨ reply = .error .enoent := by
  unfold forced at h
  split at h
  · exact .inr rfl
  · exact .inl h

theorem sound_rmSync_staged (staged : Staged system self attempt inode w)
    : (protocol system byName).Sound (.holder self)
      (fun w' outcome => outcome = .ok () → Around system self w')
      (rmSync (.staging self attempt)) w := by
  refine sound_fs unique fun w₁ later _ =>
    ⟨.unlink (by rfl), fun fault reply tree answered kept => ?_⟩
  have staged₁ := (staged.later later).unlinked later.inv kept.grows answered
  cases emptied : forced reply with
  | error error =>
      simp only
      exact sound_done fun _ _ wrong => by cases wrong
  | ok value =>
      simp only
      refine sound_fs unique fun w₂ later₂ _ =>
        ⟨.rmdir (.inr (by rfl)), fun fault reply tree answered kept => ?_⟩
      refine sound_done fun w₃ later₃ removed => ?_
      have around := (staged₁.later later₂).removed later₂.inv kept.grows answered
        (forced_ok removed)
      exact around.later later₃

/-- Where nothing is in staging, nothing is removed. -/
theorem sound_rmSync_published (published : Published system self inside inode w)
    (free : w.tree.names (.staging self attempt) = none)
    : (protocol system byName).Sound (.holder self)
      (fun w' _ => Published system self inside inode w')
      (rmSync (.staging self attempt)) w := by
  refine sound_fs unique fun w₁ later _ =>
    ⟨.unlink (by rfl), fun fault reply tree answered kept => ?_⟩
  have published₁ := published.later later
  have free₁ := ((show Rely system byName self w w₁ from later.rely).staging attempt).trans free
  rw [Directories.Tree.respond_absent free₁ (.inl rfl) answered, later.inv.left_self]
  cases emptied : forced reply with
  | error error =>
      simp only
      exact sound_done fun _ later₂ => published₁.later later₂
  | ok value =>
      simp only
      refine sound_fs unique fun w₂ later₂ _ =>
        ⟨.rmdir (.inr (by rfl)), fun fault reply tree answered kept => ?_⟩
      have free₂ := ((show Rely system byName self w₁ w₂ from later₂.rely).staging attempt).trans free₁
      rw [Directories.Tree.respond_absent free₂ (.inr rfl) answered, later₂.inv.left_self]
      exact sound_done fun _ later₃ => (published₁.later later₂).later later₃

variable {value : Unit}

omit unique [DecidableEq P] in
theorem Around.made {fault : Option Fault} {tree : Directories.Tree (Name ι) String}
    (around : Around system self w) (inv : Inv system w) (grows : Grows system w (w.left tree))
    (answered : w.tree.respond (.mkdir (.staging self attempt)) fault = (.ok value, tree))
    : Staged system self attempt w.tree.next (w.left tree)
      ∧ (w.left tree).tree.owner w.tree.next = none := by
  obtain ⟨at_, bare⟩ := Directories.Tree.names_of_mkdir answered
  refine ⟨⟨around.outside, at_, fun last => .inr (grows.placed (around.placed ?_))⟩, bare⟩
  exact latest_left inv (Directories.Tree.respond_change answered) (by simp) last

omit unique [DecidableEq P] in
theorem Staged.created {fault : Option Fault} {tree : Directories.Tree (Name ι) String}
    (staged : Staged system self attempt inode w) (inv : Inv system w)
    (grows : Grows system w (w.left tree))
    (answered : w.tree.respond (.create (.staging self attempt) (system.record self)) fault
      = (.ok value, tree))
    : Staged system self attempt inode (w.left tree)
      ∧ (w.left tree).tree.owner inode = some (system.record self) := by
  have change := Directories.Tree.respond_change answered
  obtain ⟨found, at_, -, rfl⟩ := Directories.Tree.owner_of_create answered
  cases staged.at_.symm.trans at_
  refine ⟨⟨staged.outside, staged.at_, fun last => ?_⟩, Function.update_self ..⟩
  rcases latest_new inv change last with old | ⟨name, is, there⟩
  · exact (staged.placed old).imp id grows.placed
  · cases is
    exact .inl (Option.some.inj (there.symm.trans at_))

omit unique [DecidableEq P] in
/-- What is renamed onto the lock is published, and all that was at the lock has left it. -/
theorem Staged.published {fault : Option Fault} {tree : Directories.Tree (Name ι) String}
    (staged : Staged system self attempt inode w)
    (owner : w.tree.owner inode = some (system.record self)) (inv : Inv system w) (wf : tree.WF)
    (grows : Grows system w (w.left tree))
    (answered : w.tree.respond (.rename (.staging self attempt) .lock) fault = (.ok value, tree))
    : Published system self false inode (w.left tree)
      ∧ (w.left tree).tree.names (.staging self attempt) = none := by
  have change := Directories.Tree.respond_change answered
  obtain ⟨found, at_, rfl⟩ := Directories.Tree.names_of_rename (by simp) answered
  cases staged.at_.symm.trans at_
  have lock := w.tree.moved_target (.staging self attempt) .lock inode
  have free := @Directories.Tree.moved_source _ _ _ (.staging self attempt) .lock w.tree
    (by simp) inode
  have placed : Placed (w.left (w.tree.moved (.staging self attempt) .lock inode)) inode :=
    ⟨inv.wf.bound at_, fun holder number there => by cases wf.names there lock⟩
  refine ⟨⟨staged.outside, owner, placed, fun {other} last => ?_, .inl lock⟩, free⟩
  by_cases same : other = inode
  · exact .inl same
  · rcases staged.placed (latest_left inv change (by simp) last) with wrong | settled
    · exact absurd wrong same
    · exact .inr ⟨grows.placed settled,
        fun there => same (Option.some.inj (there.symm.trans lock))⟩

/-- The publication by rename, before its staging is removed. -/
theorem sound_publishOwner (staged : Staged system self attempt inode w)
    : (protocol system byName).Sound (.holder self)
      (fun w' outcome =>
        outcome = .ok () ∧ Published system self false inode w'
            ∧ w'.tree.names (.staging self attempt) = none
          ∨ outcome ≠ .ok () ∧ Staged system self attempt inode w')
      (publishOwner self attempt (system.record self)) w := by
  refine sound_fs unique fun w₁ later₁ _ =>
    ⟨.create (.inr ⟨attempt, rfl⟩), fun fault reply tree answered kept => ?_⟩
  have staged₁ := staged.later later₁
  cases reply with
  | error error =>
      rw [left_of_error later₁.inv answered]
      exact sound_done fun _ later => .inr ⟨by simp, staged₁.later later⟩
  | ok value =>
      obtain ⟨staged₂, owner⟩ := staged₁.created later₁.inv kept.grows answered
      refine sound_look unique rfl fun w₃ later₃ _ fault reply tree' looked => ?_
      have staged₃ := staged₂.later later₃
      have owner₃ : w₃.tree.owner inode = some (system.record self) := by
        have rely : Rely system byName self (w₁.left tree) w₃ := later₃.rely
        exact (rely.staged staged₂.at_).trans owner
      cases reply with
      | ok found => exact sound_done fun _ later => .inr ⟨by simp, staged₃.later later⟩
      | error error =>
          cases error with
          | enoent =>
              refine sound_fs unique fun w₄ later₄ _ =>
                ⟨.publish attempt, fun fault reply tree'' renamed kept => ?_⟩
              have staged₄ := staged₃.later later₄
              have owner₄ : w₄.tree.owner inode = some (system.record self) := by
                have rely : Rely system byName self w₃ w₄ := later₄.rely
                exact (rely.staged staged₃.at_).trans owner₃
              cases reply with
              | ok value =>
                  obtain ⟨published, free⟩ :=
                    staged₄.published owner₄ later₄.inv kept.inv.wf kept.grows renamed
                  refine sound_done fun w₅ later₅ => .inl ⟨rfl, published.later later₅, ?_⟩
                  have rely : Rely system byName self (w₄.left tree'') w₅ := later₅.rely
                  exact (rely.staging attempt).trans free
              | error error =>
                  rw [left_of_error later₄.inv renamed]
                  exact sound_done fun _ later => .inr ⟨by simp, staged₄.later later⟩
          | eexist | enotempty | eperm | eacces | eio =>
              exact sound_done fun _ later => .inr ⟨by simp, staged₃.later later⟩

/-- What is left after the staging is removed, whatever becomes of the attempt then. -/
theorem sound_publishStaged {next : Except PublishFailure Unit → Proc ι P α} {failed : Errno → α}
    (inv : Inv system w) (staged : Staged system self attempt inode w)
    (published : ∀ w', Inv system w' → Published system self false inode w' →
      (protocol system byName).Sound (.holder self) post (next (.ok ())) w')
    (absent : ∀ w' failure, Inv system w' → Around system self w' →
      (protocol system byName).Sound (.holder self) post (next (.error failure)) w')
    (error : ∀ w' error, post w' (failed error))
    : (protocol system byName).Sound (.holder self) post
      (publishOwner self attempt (system.record self) >>= fun outcome =>
        rmSync (.staging self attempt) >>= fun removed =>
          match removed with
          | .error error => pure (failed error)
          | .ok () => next outcome) w := by
  refine .bind inv (sound_publishOwner unique staged) fun w₁ outcome inv₁ _ known => ?_
  rcases known w₁ (.refl inv₁) with ⟨rfl, published₁, free⟩ | ⟨other, staged₁⟩
  · refine .bind inv₁ (sound_rmSync_published unique published₁ free)
      fun w₂ removed inv₂ _ known => ?_
    cases removed with
    | error _ => exact sound_done fun _ _ => error _ _
    | ok value => exact published w₂ inv₂ (known w₂ (.refl inv₂))
  · refine .bind inv₁ (sound_rmSync_staged unique staged₁) fun w₂ removed inv₂ _ left => ?_
    cases removed with
    | error _ => exact sound_done fun _ _ => error _ _
    | ok value =>
        have around := left w₂ (.refl inv₂) rfl
        cases outcome with
        | ok value => exact absurd rfl other
        | error failure => exact absent w₂ failure inv₂ around

/-- What an attempt leaves: a published lock, or nothing that can still be published. -/
def Attempted (system : System ι P) (self : ι) (w : World ι P) : Except Errno Bool → Prop
  | .ok true => ∃ inode, Published system self false inode w
  | .ok false => Around system self w
  | .error _ => True

theorem sound_tryCustody (around : Around system self w)
    : (protocol system byName).Sound (.holder self) (Attempted system self)
      (tryCustody self attempt (system.record self)) w := by
  refine sound_fs unique fun w₁ later₁ _ =>
    ⟨.mkdir (.inr ⟨attempt, rfl⟩), fun fault reply tree answered kept => ?_⟩
  cases reply with
  | error error => exact sound_done fun _ _ => trivial
  | ok value =>
      obtain ⟨staged, -⟩ := (around.later later₁).made later₁.inv kept.grows answered
      refine sound_publishStaged unique kept.inv staged (fun w₂ _ published => ?_)
        (fun w₂ failure _ around => ?_) fun _ _ => trivial
      · exact sound_done fun _ later => ⟨_, published.later later⟩
      · refine sound_done fun w₃ later => ?_
        have around := around.later later
        match failure with
        | .present => exact around
        | .unwritten _ | .unseen _ => trivial
        | .unpublished error => cases error <;> first | exact around | trivial

omit unique [DecidableEq P] in
/-- A record that is created at the lock is published, in whatever directory is there. -/
theorem Around.published {fault : Option Fault} {tree : Directories.Tree (Name ι) String}
    (around : Around system self w) (inv : Inv system w) (wf : tree.WF)
    (grows : Grows system w (w.left tree))
    (answered : w.tree.respond (.create .lock (system.record self)) fault = (.ok value, tree))
    : ∃ inode, Published system self false inode (w.left tree) := by
  have change := Directories.Tree.respond_change answered
  obtain ⟨inode, at_, -, rfl⟩ := Directories.Tree.owner_of_create answered
  have lock : (w.left (w.tree.recorded inode (some (system.record self)))).tree.names .lock
      = some inode := at_
  have placed : Placed (w.left (w.tree.recorded inode (some (system.record self)))) inode :=
    ⟨inv.wf.bound at_, fun holder number there => by cases wf.names there lock⟩
  refine ⟨inode, around.outside, Function.update_self .., placed, fun {other} last => ?_, .inl lock⟩
  by_cases same : other = inode
  · exact .inl same
  · refine .inr ⟨?_, fun there => same (Option.some.inj (there.symm.trans lock))⟩
    rcases latest_new inv change last with old | ⟨name, is, there⟩
    · exact grows.placed (around.placed old)
    · cases is
      exact absurd (Option.some.inj (there.symm.trans at_)) same

theorem sound_tryMeshLock (around : Around system self w)
    : (protocol system byName).Sound (.holder self) (Attempted system self)
      (tryMeshLock (system.record self)) w := by
  refine sound_fs unique fun w₁ later₁ _ =>
    ⟨.mkdir (.inl rfl), fun fault reply tree answered kept => ?_⟩
  have around₁ := around.later later₁
  cases reply with
  | error error =>
      rw [left_of_error later₁.inv answered]
      cases error <;>
        first
        | exact sound_done fun _ later => around₁.later later
        | exact sound_done fun _ _ => trivial
  | ok value =>
      have around₂ : Around system self (w₁.left tree) := by
        refine ⟨around₁.outside, fun last => kept.grows.placed (around₁.placed ?_)⟩
        exact latest_left later₁.inv (Directories.Tree.respond_change answered) (by simp) last
      refine sound_fs unique fun w₂ later₂ _ =>
        ⟨.create (.inl rfl), fun fault reply tree' created kept' => ?_⟩
      have around₃ := around₂.later later₂
      cases reply with
      | ok value =>
          obtain ⟨inode, published⟩ :=
            around₃.published later₂.inv kept'.inv.wf kept'.grows created
          exact sound_done fun _ later => ⟨inode, published.later later⟩
      | error error =>
          rw [left_of_error later₂.inv created]
          cases error with
          | eexist => exact sound_done fun _ later => around₃.later later
          | enoent | enotempty | eperm | eacces | eio =>
              exact sound_fs unique fun _ _ _ =>
                ⟨.rmdir (.inl rfl), fun _ _ _ _ _ => sound_done fun _ _ => trivial⟩

def PinnedAt (system : System ι P) (self : ι) (inode : Nat) (w : World ι P) (pin : Pin) : Prop :=
  Published system self false inode w ∧ ∀ found, pin = .pinned found → found = inode

theorem sound_pinFenceLock {platform : Platform} {procFd : Bool}
    (published : Published system self false inode w)
    : (protocol system byName).Sound (.holder self) (PinnedAt system self inode)
      (pinFenceLock platform procFd (system.record self)) w := by
  unfold pinFenceLock
  by_cases linux : platform ≠ .linux
  · simp only [linux, if_true, ne_eq, not_false_eq_true]
    exact sound_done fun _ later => ⟨published.later later, by simp⟩
  · rw [if_neg linux]
    refine sound_look unique rfl fun w₁ later₁ _ fault reply tree opened => ?_
    have published₁ := published.later later₁
    cases reply with
    | error error => exact sound_done fun _ later => ⟨published₁.later later, by simp⟩
    | ok found =>
        have at_ := Directories.Tree.names_of_opendir opened
        cases procFd with
        | false => exact sound_done fun _ later => ⟨published₁.later later, by simp⟩
        | true =>
            refine sound_look unique rfl fun w₂ later₂ _ fault reply tree' looked => ?_
            have published₂ := published₁.later later₂
            cases reply with
            | error error =>
                cases error <;>
                  exact sound_done fun _ later => ⟨published₂.later later, by simp⟩
            | ok owner =>
                refine sound_done fun w₃ later₃ => ⟨published₂.later later₃, fun pin is => ?_⟩
                split at is
                · next same =>
                    cases is
                    subst same
                    have held := Directories.Tree.owner_of_readAt looked
                    have rely : Rely system byName self w₁ w₂ := later₂.rely
                    -- what was at the lock after the publication is the published directory
                    rcases published₁.retired (rely.latest (later₂.inv.latest held)) with
                      same | retired
                    · exact same
                    · exact absurd at_ retired.2
                · cases is

omit unique [DecidableEq P] in
theorem Published.unlinked {fault : Option Fault} {tree : Directories.Tree (Name ι) String}
    (published : Published system self false inode w) (inv : Inv system w)
    (grows : Grows system w (w.left tree))
    (answered : w.tree.respond (.unlinkAt inode) fault = (.ok value, tree))
    : Emptied system self inode (w.left tree) := by
  refine ⟨grows.placed published.placed, fun last => ?_⟩
  have old := latest_left inv (Directories.Tree.respond_change answered) (by simp) last
  exact (published.retired old).imp id grows.retired

omit unique [DecidableEq ι] [DecidableEq P] in
theorem Emptied.over (emptied : Emptied system self inode w)
    (off : w.tree.names .lock ≠ some inode)
    : Over system self w := by
  intro found last
  rcases emptied.retired last with rfl | retired
  · exact ⟨emptied.placed, off⟩
  · exact retired

omit unique [DecidableEq ι] [DecidableEq P] in
theorem Emptied.replaced (emptied : Emptied system self inode w) {found : Nat}
    (at_ : w.tree.names .lock = some found) (other : found ≠ inode)
    : Over system self w :=
  emptied.over fun there => other (Option.some.inj (at_.symm.trans there))

omit unique [DecidableEq ι] [DecidableEq P] in
/-- So it is when another record was published in it. -/
theorem Emptied.taken (emptied : Emptied system self inode w) (inv : Inv system w)
    {found : Nat} {owner : String} (at_ : w.tree.names .lock = some found)
    (held : w.tree.owner found = some owner) (foreign : owner ≠ system.record self)
    : Over system self w := by
  intro other last
  rcases emptied.retired last with rfl | retired
  · refine ⟨emptied.placed, fun there => foreign ?_⟩
    cases there.symm.trans at_
    exact Option.some.inj ((inv.latest held).symm.trans last)
  · exact retired

/-- What a release leaves: its directory was published once, and is free if it says so. -/
def AfterRelease (system : System ι P) (self : ι) (pin : Nat) (w : World ι P)
    (release : FenceLockRelease) : Prop :=
  Placed w pin ∧ (release = .released → Over system self w)

omit unique in
theorem sound_released (emptied : Emptied system self pin w) (free : Over system self w)
    : (protocol system byName).Sound (.holder self) (AfterRelease system self pin)
      (pure .released) w :=
  sound_done fun _ later => ⟨(emptied.later later).placed, fun _ => free.later later⟩

omit unique in
theorem sound_refused {release : FenceLockRelease} (placed : Placed w pin)
    (other : release ≠ .released)
    : (protocol system byName).Sound (.holder self) (AfterRelease system self pin)
      (pure release) w :=
  sound_done fun _ later => ⟨later.grows.placed placed, fun same => absurd same other⟩

theorem sound_releaseUnremoved {cause : Errno} (emptied : Emptied system self pin w)
    : (protocol system byName).Sound (.holder self) (AfterRelease system self pin)
      (releaseUnremoved (system.record self) pin cause) w := by
  refine sound_look unique rfl fun w₁ later₁ _ fault reply tree looked => ?_
  have emptied₁ := emptied.later later₁
  cases reply with
  | error error =>
      cases error with
      | enoent =>
          have free := Directories.Tree.absent_of_lstat looked
          exact sound_released emptied₁ (emptied₁.over (by simp [free]))
      | eexist | enotempty | eperm | eacces | eio =>
          exact sound_refused emptied₁.placed (by simp)
  | ok found =>
      have at_ := Directories.Tree.names_of_lstat looked
      dsimp only
      split
      · next other =>
          exact sound_released emptied₁ (emptied₁.replaced at_ other)
      · refine sound_look unique rfl fun w₂ later₂ _ fault reply tree' looked' => ?_
        have emptied₂ := emptied₁.later later₂
        cases reply with
        | error error => exact sound_refused emptied₂.placed (by simp)
        | ok owner =>
            obtain ⟨holder, there, held⟩ := Directories.Tree.owner_of_read looked'
            dsimp only
            split
            · next foreign =>
                exact sound_released emptied₂ (emptied₂.taken later₂.inv there held foreign)
            · exact sound_refused emptied₂.placed (by simp)

theorem sound_releaseAfterOwnerUnlink (emptied : Emptied system self pin w)
    : (protocol system byName).Sound (.holder self) (AfterRelease system self pin)
      (releaseAfterOwnerUnlink (system.record self) pin) w := by
  refine sound_look unique rfl fun w₁ later₁ _ fault reply tree looked => ?_
  have emptied₁ := emptied.later later₁
  cases reply with
  | error error =>
      cases error with
      | enoent =>
          have free := Directories.Tree.absent_of_lstat looked
          exact sound_released emptied₁ (emptied₁.over (by simp [free]))
      | eexist | enotempty | eperm | eacces | eio =>
          exact sound_refused emptied₁.placed (by simp)
  | ok found =>
      have at_ := Directories.Tree.names_of_lstat looked
      dsimp only
      split
      · next other =>
          exact sound_released emptied₁ (emptied₁.replaced at_ other)
      · refine sound_fs unique fun w₂ later₂ _ =>
          ⟨.rmdir (.inl rfl), fun fault reply tree' removed kept => ?_⟩
        have emptied₂ := emptied₁.later later₂
        have emptied₃ : Emptied system self pin (w₂.left tree') := by
          have change := Directories.Tree.respond_change removed
          refine ⟨kept.grows.placed emptied₂.placed, fun last => ?_⟩
          have old := latest_left later₂.inv change (by simp) last
          exact (emptied₂.retired old).imp id kept.grows.retired
        have gone : (reply = .ok () ∨ reply = .error .enoent) →
            (w₂.left tree').tree.names .lock ≠ some pin := by
          intro successful
          have free := Directories.Tree.free_of_rmdir removed successful
          exact fun there => absurd (Eq.trans (Eq.symm free) there) (by simp)
        cases reply with
        | ok value => exact sound_released emptied₃ (emptied₃.over (gone (.inl rfl)))
        | error cause =>
            cases cause with
            | enoent => exact sound_released emptied₃ (emptied₃.over (gone (.inr rfl)))
            | eexist | enotempty | eperm | eacces | eio =>
                exact sound_releaseUnremoved unique emptied₃

theorem sound_releaseAtName (published : Published system self false pin w)
    : (protocol system byName).Sound (.holder self) (AfterRelease system self pin)
      (releaseAtName (system.record self) pin pin) w := by
  refine sound_look unique rfl fun w₁ later₁ _ fault reply tree looked => ?_
  have published₁ := published.later later₁
  cases reply with
  | error error => cases error <;> exact sound_refused published₁.placed (by simp)
  | ok found =>
      dsimp only
      split
      · exact sound_refused published₁.placed (by simp)
      · refine sound_fs unique fun w₂ later₂ _ => ?_
        have published₂ := published₁.later later₂
        refine ⟨.unlinkAt published₂.inside published₂.owner,
          fun fault reply tree' unlinked kept => ?_⟩
        cases reply with
        | error error => exact sound_refused (kept.grows.placed published₂.placed) (by simp)
        | ok value =>
            have emptied := published₂.unlinked later₂.inv kept.grows unlinked
            exact sound_releaseAfterOwnerUnlink unique emptied

theorem sound_releaseOwned (published : Published system self false pin w)
    : (protocol system byName).Sound (.holder self) (AfterRelease system self pin)
      (releaseOwned (system.record self) pin) w := by
  refine sound_look unique rfl fun w₁ later₁ _ fault reply tree looked => ?_
  have published₁ := published.later later₁
  cases reply with
  | error error => exact sound_refused published₁.placed (by simp)
  | ok ours =>
      cases Directories.Tree.eq_of_fstat looked
      exact sound_releaseAtName unique published₁

theorem sound_releaseFenceLock (published : Published system self false pin w)
    : (protocol system byName).Sound (.holder self) (AfterRelease system self pin)
      (releaseFenceLock (system.record self) pin) w := by
  refine sound_look unique rfl fun w₁ later₁ _ fault reply tree looked => ?_
  have published₁ := published.later later₁
  cases reply with
  | error error => exact sound_refused published₁.placed (by simp)
  | ok owner =>
      dsimp only
      split
      · exact sound_refused published₁.placed (by simp)
      · exact sound_releaseOwned unique published₁

omit unique in
/-- A holder enters and leaves its section, and enters with its lock if it lives. -/
theorem guarantees_inside (inv : Inv system w)
    (locked : inside = true → Live system w self → ∃ inode, w.tree.names .lock = some inode
      ∧ w.tree.owner inode = some (system.record self))
    : (protocol system byName).Guarantees (.holder self) w
      { w with inside := Function.update w.inside self inside } := by
  refine ⟨⟨inv.wf, inv.owned, inv.staging, inv.latest, inv.fences, inv.judged, ?_, inv.lapsed⟩,
    ⟨id, id, id, id, id, fun _ => id⟩, ?_⟩
  · intro holder entered live
    by_cases same : holder = self
    · subst same
      exact locked ((Function.update_self ..).symm.trans entered) live
    · exact inv.inside ((Function.update_of_ne same ..).symm.trans entered) live
  · intro other apart
    cases other with
    | holder other =>
        have different : other ≠ self := fun same => apart (same ▸ rfl)
        exact ⟨Function.update_of_ne different .., id, fun _ => id, id, id,
          fun _ there held => ⟨held, .inl there⟩, fun _ _ => id, fun _ => rfl, fun _ => rfl⟩
    | recoverer _ | fate _ => trivial

omit [DecidableEq ι] [DecidableEq P] unique in
theorem Published.setInside [DecidableEq ι] (published : Published system self inside pin w)
    (now : Bool)
    : Published system self now pin { w with inside := Function.update w.inside self now } :=
  ⟨Function.update_self .., published.owner, published.placed, published.retired, published.at_⟩

omit unique in
theorem sound_enter {next : Proc ι P α} (published : Published system self false pin w)
    (rest : ∀ w', (protocol system byName).inv w' → Published system self true pin w' →
      (protocol system byName).Sound (.holder self) post next w')
    : (protocol system byName).Sound (.holder self) post (.call .enter fun _ => next) w := by
  intro w₁ later reply left performed
  have published₁ := published.later later
  cases performed with
  | call may performed =>
      cases performed
      have guaranteed : (protocol system byName).Guarantees (.holder self) w₁
          { w₁ with inside := Function.update w₁.inside self true } :=
        guarantees_inside later.inv fun _ live => ⟨pin, published₁.lock live, published₁.owner⟩
      exact ⟨guaranteed, rest _ guaranteed.inv (published₁.setInside true)⟩

omit unique in
theorem sound_leave {next : Proc ι P α} (published : Published system self true pin w)
    (rest : ∀ w', (protocol system byName).inv w' → Published system self false pin w' →
      (protocol system byName).Sound (.holder self) post next w')
    : (protocol system byName).Sound (.holder self) post (.call .leave fun _ => next) w := by
  intro w₁ later reply left performed
  have published₁ := published.later later
  cases performed with
  | call may performed =>
      cases performed
      have guaranteed : (protocol system byName).Guarantees (.holder self) w₁
          { w₁ with inside := Function.update w₁.inside self false } :=
        guarantees_inside later.inv (by simp)
      exact ⟨guaranteed, rest _ guaranteed.inv (published₁.setInside false)⟩

def FenceEnded (system : System ι P) (self : ι) (w : World ι P) : FenceOutcome → Prop
  | .ended pin release => AfterRelease system self pin w release
  | .busy | .threw _ | .unpinned => True

theorem sound_holdPinned (published : Published system self false pin w)
    : (protocol system byName).Sound (.holder self) (FenceEnded system self)
      (holdPinned (system.record self) pin) w := by
  refine sound_enter published fun w₁ inv₁ entered => ?_
  refine sound_leave entered fun w₂ inv₂ outside => ?_
  refine .bind inv₂ (sound_releaseFenceLock unique outside) fun w₃ release inv₃ _ known => ?_
  exact sound_done fun _ later => known _ later

theorem sound_attemptFence {wire : Wire} (around : Around system self w)
    : (protocol system byName).Sound (.holder self) (Attempted system self)
      (attemptFence wire self attempt (system.record self)) w := by
  cases wire with
  | custody => exact sound_tryCustody unique around
  | mesh => exact sound_tryMeshLock unique around

theorem sound_holdMeshFenceSync {wire : Wire} {procFd : Bool} (attempts : Nat)
    (inv : Inv system w) (around : Around system self w)
    : (protocol system byName).Sound (.holder self) (FenceEnded system self)
      (holdMeshFenceSync wire procFd self (system.record self) attempts) w := by
  induction attempts generalizing w with
  | zero => exact sound_done fun _ _ => trivial
  | succ attempts ih =>
      refine .bind inv (sound_attemptFence unique around) fun w₁ outcome inv₁ _ known => ?_
      have attempted := known w₁ (.refl inv₁)
      match outcome, attempted with
      | .error error, _ => exact sound_done fun _ _ => trivial
      | .ok false, around => exact ih inv₁ around
      | .ok true, ⟨inode, published⟩ =>
          refine .bind inv₁ (sound_pinFenceLock unique published) fun w₂ pin inv₂ _ known => ?_
          obtain ⟨published₂, same⟩ := known w₂ (.refl inv₂)
          cases pin with
          | pinned pin =>
              cases same pin rfl
              exact sound_holdPinned unique published₂
          | unpinned => exact sound_done fun _ _ => trivial
          | foreign => exact ih inv₂ published₂.around

end

end PiFabric.Locks
