import PiFabric.Locks.Custody

/-! What holds of every world that locks are taken in, and what each call of a holder keeps. A
record that others may rely on stays where it is while its holder lives. A directory that has left
the lock never returns to it.
-/

namespace PiFabric.Locks

open Directories (Errno Fault)
open Directories.Tree (Change)
open Interleaving (Prog Protocol)

variable {ι P : Type} [DecidableEq ι] {system : System ι P} {w w' : World ι P}
  {self other : ι} {byName : Bool} {inode found : Nat} {record : String}

def Live (system : System ι P) (w : World ι P) (self : ι) : Prop :=
  w.status (system.process self) = .live

def Orphan (system : System ι P) (w : World ι P) (record : String) : Prop :=
  ∃ self, system.record self = record ∧ w.status (system.process self) = .dead

/-- A directory that nobody has in staging, and so none that will be published. -/
def Placed (w : World ι P) (inode : Nat) : Prop :=
  inode < w.tree.next ∧ ∀ self attempt, w.tree.names (.staging self attempt) ≠ some inode

/-- A directory that has left the lock. -/
def Retired (w : World ι P) (inode : Nat) : Prop :=
  Placed w inode ∧ w.tree.names .lock ≠ some inode

/-- No other directory than this one may hold the record of a dead process at the lock. -/
def Sole (system : System ι P) (w : World ι P) (inode : Nat) (record : String) : Prop :=
  Orphan system w record
    ∧ ∀ found, w.tree.names .lock = some found → w.tree.owner found = some record → found = inode

/-- The record of a dead process is in its directory, at the lock or at its fence. -/
def Doomed (system : System ι P) (w : World ι P) (inode : Nat) (record : String) : Prop :=
  Orphan system w record ∧ w.tree.owner inode = some record
    ∧ (w.tree.names .lock = some inode ∨ w.tree.names (.dead inode (some record)) = some inode)

/-- Names where a holder's record is safe with others. -/
def Name.shared : Name ι → Prop
  | .lock | .staging _ _ | .dead _ _ => True
  | .released _ | .graveyard _ => False

/-- Names that a holder may empty, where locks may also be released by their names. -/
def Name.own (byName : Bool) (self : ι) : Name ι → Prop
  | .staging other _ => other = self
  | .released _ | .graveyard _ => byName = true
  | .lock | .dead _ _ => False

structure Inv (system : System ι P) (w : World ι P) : Prop where
  wf : w.tree.WF
  owned : ∀ {inode record}, w.tree.owner inode = some record →
    ∃ self, system.record self = record
  staging : ∀ {self attempt inode record}, w.tree.names (.staging self attempt) = some inode →
    w.tree.owner inode = some record → record = system.record self
  latest : ∀ {inode record}, w.tree.owner inode = some record → w.latest inode = some record
  fences : ∀ {inode record found}, w.tree.names (.dead inode (some record)) = some found →
    found = inode ∧ w.latest inode = some record ∧ (inode, record) ∈ w.judged
  judged : ∀ {inode record self}, (inode, record) ∈ w.judged → system.record self = record →
    ¬Live system w self
  inside : ∀ {self}, w.inside self = true → Live system w self →
    ∃ inode, w.tree.names .lock = some inode
      ∧ w.tree.owner inode = some (system.record self)
  lapsed : ∀ {process}, w.status process = .lapsed → system.lapses process = true

structure Grows (system : System ι P) (w w' : World ι P) : Prop where
  dead : ∀ {process}, w.status process = .dead → w'.status process = .dead
  placed : ∀ {inode}, Placed w inode → Placed w' inode
  retired : ∀ {inode}, Retired w inode → Retired w' inode
  sole : ∀ {inode record}, Sole system w inode record → Sole system w' inode record
  doomed : ∀ {inode record}, Doomed system w inode record → Doomed system w' inode record
  judged : ∀ found ∈ w.judged, found ∈ w'.judged

/-- What the others keep of a record: it stays, or went from the lock to its fence when its
holder was no longer live.
-/
structure Kept (system : System ι P) (holder : ι) (w' : World ι P) (name : Name ι) (inode : Nat)
    : Prop where
  owner : w'.tree.owner inode = some (system.record holder)
  at_ : w'.tree.names name = some inode
    ∨ name = .lock ∧ ¬Live system w' holder ∧ (inode, system.record holder) ∈ w'.judged
      ∧ w'.tree.names (.dead inode (some (system.record holder))) = some inode

structure Rely (system : System ι P) (byName : Bool) (holder : ι) (w w' : World ι P) : Prop where
  inside : w'.inside holder = w.inside holder
  live : Live system w' holder → Live system w holder
  judged : ∀ found ∈ w.judged, found ∈ w'.judged
  record : ∀ {inode}, w'.tree.owner inode = some (system.record holder) →
    w.tree.owner inode = some (system.record holder)
  latest : ∀ {inode}, w'.latest inode = some (system.record holder) →
    w.latest inode = some (system.record holder)
  kept : ∀ {name inode}, name.shared → w.tree.names name = some inode →
    w.tree.owner inode = some (system.record holder) → Kept system holder w' name inode
  unerased : byName = false → ∀ {inode}, w.tree.owner inode = some (system.record holder) →
    w'.tree.owner inode = some (system.record holder)
  staging : ∀ attempt, w'.tree.names (.staging holder attempt) = w.tree.names (.staging holder attempt)
  staged : ∀ {attempt inode}, w.tree.names (.staging holder attempt) = some inode →
    w'.tree.owner inode = w.tree.owner inode

omit [DecidableEq ι] in
theorem Rely.refl (system : System ι P) (byName : Bool) (self : ι) (w : World ι P)
    : Rely system byName self w w where
  inside := rfl
  live := id
  judged _ := id
  record := id
  latest := id
  kept _ there held := ⟨held, .inl there⟩
  unerased _ := id
  staging _ := rfl
  staged _ := rfl

omit [DecidableEq ι] in
theorem Rely.trans {third : World ι P} (hf : Rely system byName self w w')
    (hs : Rely system byName self w' third)
    : Rely system byName self w third where
  inside := hs.inside.trans hf.inside
  live h := hf.live (hs.live h)
  judged found member := hs.judged found (hf.judged found member)
  record held := hf.record (hs.record held)
  latest held := hf.latest (hs.latest held)
  kept {name inode} shared there held := by
    obtain ⟨stays, at_⟩ := hf.kept shared there held
    rcases at_ with at_ | ⟨rfl, lost, judged, fence⟩
    · exact hs.kept shared at_ stays
    · obtain ⟨owner, still⟩ := hs.kept (by trivial) fence stays
      refine ⟨owner, .inr ⟨rfl, fun live => lost (hs.live live), hs.judged _ judged, ?_⟩⟩
      rcases still with still | ⟨wrong, -⟩
      · exact still
      · cases wrong
  unerased plain _ held := hs.unerased plain (hf.unerased plain held)
  staging attempt := (hs.staging attempt).trans (hf.staging attempt)
  staged {attempt inode} there :=
    (hs.staged ((hf.staging attempt).trans there)).trans (hf.staged there)

def protocol [DecidableEq P] (system : System ι P) (byName : Bool)
    : Protocol (Thread ι P) (World ι P) (Call ι P) Reply where
  perform thread w call reply w' := Performs system thread w call reply w'
  inv := Inv system
  grows := Grows system
  rely
    | .holder self => Rely system byName self
    | .recoverer _ | .fate _ => fun _ _ => True
  grows_refl _ := ⟨id, id, id, id, id, fun _ => id⟩
  grows_trans hf hs := ⟨fun h => hs.dead (hf.dead h), fun h => hs.placed (hf.placed h),
    fun h => hs.retired (hf.retired h), fun h => hs.sole (hf.sole h),
    fun h => hs.doomed (hf.doomed h), fun found member => hs.judged found (hf.judged found member)⟩
  rely_refl
    | .holder self => Rely.refl system byName self
    | .recoverer _ | .fate _ => fun _ => trivial
  rely_trans {thread _ _ _} hf hs := by
    cases thread with
    | holder self => exact Rely.trans hf hs
    | recoverer _ | fate _ => trivial

omit [DecidableEq ι] in
theorem Inv.start (system : System ι P) : Inv system (World.start ι P) where
  wf := .empty
  owned h := nomatch h
  staging h := nomatch h
  latest h := nomatch h
  fences h := nomatch h
  judged h := nomatch h
  inside h := nomatch h
  lapsed h := nomatch h

/-- What a holder calls, and what it knows then. -/
inductive Fair (system : System ι P) (byName : Bool) (w : World ι P) (self : ι)
    : Directories.Call (Name ι) String → Prop
  | looks {call : Directories.Call (Name ι) String} (looks : call.looks = true)
      : Fair system byName w self call
  | mkdir {name : Name ι} (at_ : name = .lock ∨ ∃ attempt, name = .staging self attempt)
      : Fair system byName w self (.mkdir name)
  | create {name : Name ι} (at_ : name = .lock ∨ ∃ attempt, name = .staging self attempt)
      : Fair system byName w self (.create name (system.record self))
  | publish (attempt : Nat) : Fair system byName w self (.rename (.staging self attempt) .lock)
  | fence {inode : Nat} {record : String} (doomed : Doomed system w inode record)
      (judged : (inode, record) ∈ w.judged)
      : Fair system byName w self (.rename .lock (.dead inode (some record)))
  | detach {target : Name ι} {inode : Nat} (plain : byName = true) (private_ : ¬target.shared)
      (outside : w.inside self = false) (at_ : w.tree.names .lock = some inode)
      (owner : w.tree.owner inode = some (system.record self))
      : Fair system byName w self (.rename .lock target)
  | rmdir {name : Name ι} (at_ : name = .lock ∨ name.own byName self) : Fair system byName w self (.rmdir name)
  | unlink {name : Name ι} (own : name.own byName self) : Fair system byName w self (.unlink name)
  | unlinkAt {inode : Nat} (outside : w.inside self = false)
      (owner : w.tree.owner inode = some (system.record self))
      : Fair system byName w self (.unlinkAt inode)

section
variable {call : Directories.Call (Name ι) String} {tree : Directories.Tree (Name ι) String}

omit [DecidableEq ι] in
theorem Doomed.exclusive (doomed : Doomed system w inode record)
    (at_ : w.tree.names .lock = some found)
    (bare : ∀ replaced, w.tree.names (.dead inode (some record)) = some replaced →
      w.tree.owner replaced = none)
    : found = inode := by
  obtain ⟨-, owner, lock | fence⟩ := doomed
  · exact Option.some.inj (at_.symm.trans lock)
  · exact absurd (owner.symm.trans (bare inode fence)) (by simp)

variable {name : Name ι}

theorem Fair.renames (fair : Fair system byName w self call) (change : Change w.tree call tree)
    {target : Name ι} (is : call = .rename name target) (there : w.tree.names name = some inode)
    (moved : tree.names name ≠ some inode)
    : (∃ attempt, name = .staging self attempt ∧ target = .lock)
      ∨ (name = .lock ∧ w.tree.owner inode = some (system.record self) ∧ w.inside self = false
          ∧ ¬target.shared)
      ∨ ∃ record, name = .lock ∧ target = .dead inode (some record)
        ∧ Doomed system w inode record ∧ (inode, record) ∈ w.judged := by
  cases fair with
  | looks looks => subst is; cases looks
  | publish attempt =>
      cases is
      exact .inl ⟨attempt, rfl, rfl⟩
  | @fence named record doomed judged =>
      cases is
      cases change with
      | none => exact absurd there moved
      | @moved _ _ found at_ apart bare =>
          have same := doomed.exclusive at_ bare
          cases (there.symm.trans at_)
          subst same
          exact .inr (.inr ⟨record, rfl, rfl, doomed, judged⟩)
  | @detach _ found plain private_ outside at_ owner =>
      cases is
      cases there.symm.trans at_
      exact .inr (.inl ⟨rfl, owner, outside, private_⟩)
  | mkdir | create | rmdir | unlink | unlinkAt => cases is

/-- What a holder does not move away stays, unless it has no record. -/
theorem Fair.name_kept (fair : Fair system byName w self call) (inv : Inv system w)
    (change : Change w.tree call tree) (there : w.tree.names name = some inode)
    (held : w.tree.owner inode = some record)
    (foreign : record ≠ system.record self ∨ name = .lock ∧ w.inside self = true)
    : tree.names name = some inode
      ∨ name = .lock ∧ Doomed system w inode record ∧ (inode, record) ∈ w.judged
        ∧ tree.names (.dead inode (some record)) = some inode := by
  by_cases stays : tree.names name = some inode
  · exact .inl stays
  · rcases change.name_kept there with kept | ⟨target, is, arrived⟩ | bare
    · exact absurd kept stays
    · rcases fair.renames change is there stays with
        ⟨attempt, rfl, rfl⟩ | ⟨rfl, own, outside, -⟩ | ⟨other, rfl, rfl, doomed, judged⟩
      · rcases foreign with foreign | ⟨wrong, -⟩
        · exact absurd (inv.staging there held) foreign
        · cases wrong
      · rcases foreign with foreign | ⟨-, inside⟩
        · exact absurd (Option.some.inj (held.symm.trans own)) foreign
        · exact absurd (inside.symm.trans outside) (by simp)
      · cases held.symm.trans doomed.2.1
        exact .inr ⟨rfl, doomed, judged, arrived⟩
    · exact absurd (held.symm.trans bare) (by simp)

/-- A holder unlinks no record but its own, and its own only after its section. -/
theorem Fair.owner_kept (fair : Fair system byName w self call) (inv : Inv system w)
    (change : Change w.tree call tree) (shared : name.shared)
    (there : w.tree.names name = some inode) (held : w.tree.owner inode = some record)
    (foreign : record ≠ system.record self ∨ name = .lock ∧ w.inside self = true)
    : tree.owner inode = some record := by
  rcases change.owner_kept inv.wf held with kept | rfl | ⟨emptied, rfl, at_⟩
  · exact kept
  · cases fair with
    | looks looks => cases looks
    | unlinkAt outside owner =>
        rcases foreign with foreign | ⟨-, inside⟩
        · exact absurd (Option.some.inj (held.symm.trans owner)) foreign
        · exact absurd (inside.symm.trans outside) (by simp)
  · cases fair with
    | looks looks => cases looks
    | unlink own =>
        cases inv.wf.names there at_
        cases name with
        | lock | dead _ _ => exact own.elim
        | released _ | graveyard _ => exact shared.elim
        | staging owner attempt =>
            cases own
            rcases foreign with foreign | ⟨wrong, -⟩
            · exact absurd (inv.staging there held) foreign
            · cases wrong

theorem Fair.unerased (fair : Fair system byName w self call) (inv : Inv system w)
    (change : Change w.tree call tree) (plain : byName = false)
    (held : w.tree.owner inode = some record) (foreign : record ≠ system.record self)
    : tree.owner inode = some record := by
  rcases change.owner_kept inv.wf held with kept | rfl | ⟨emptied, rfl, at_⟩
  · exact kept
  · cases fair with
    | looks looks => cases looks
    | unlinkAt outside owner =>
        exact absurd (Option.some.inj (held.symm.trans owner)) foreign
  · cases fair with
    | looks looks => cases looks
    | unlink own =>
        cases emptied with
        | lock | dead _ _ => exact own.elim
        | released _ | graveyard _ => exact absurd (own.symm.trans plain) (by simp)
        | staging owner attempt =>
            cases own
            exact absurd (inv.staging at_ held) foreign

/-- A record that a holder leaves somewhere was there, or is its own, at the lock or in staging.
-/
theorem Fair.owner_new (fair : Fair system byName w self call) (change : Change w.tree call tree)
    (held : tree.owner inode = some record)
    : w.tree.owner inode = some record
      ∨ record = system.record self ∧ w.tree.owner inode = none
        ∧ ∃ name, w.tree.names name = some inode
          ∧ (name = .lock ∨ ∃ attempt, name = .staging self attempt) := by
  rcases change.owner_new held with before | ⟨name, rfl, at_, bare⟩
  · exact .inl before
  · cases fair with
    | looks looks => cases looks
    | create place => exact .inr ⟨rfl, bare, name, at_, place⟩

theorem Fair.name_new (fair : Fair system byName w self call) (inv : Inv system w)
    (change : Change w.tree call tree) (there : tree.names name = some inode)
    : w.tree.names name = some inode
      ∨ (inode = w.tree.next ∧ tree.owner inode = none
          ∧ (name = .lock ∨ ∃ attempt, name = .staging self attempt))
      ∨ (∃ attempt, name = .lock ∧ w.tree.names (.staging self attempt) = some inode)
      ∨ (¬name.shared ∧ w.tree.names .lock = some inode)
      ∨ ∃ record, name = .dead inode (some record) ∧ w.tree.names .lock = some inode
        ∧ w.tree.owner inode = some record ∧ (inode, record) ∈ w.judged := by
  by_cases stays : w.tree.names name = some inode
  · exact .inl stays
  · rcases change.name_new there with before | ⟨is, fresh⟩ | ⟨source, is, before⟩
    · exact absurd before stays
    · refine .inr (.inl ⟨fresh, ?_, ?_⟩)
      · cases held : tree.owner inode with
        | none => rfl
        | some record =>
            rcases change.owner_new held with old | ⟨name, other, -⟩
            · exact absurd (inv.wf.made old) (by omega)
            · cases is.symm.trans other
      · subst is
        cases fair with
        | looks looks => cases looks
        | mkdir place => exact place
    · have moved : tree.names source ≠ some inode := by
        intro left
        subst is
        have same := change.name_left left
        rw [same] at there
        exact stays there
      rcases fair.renames change is before moved with
        ⟨attempt, rfl, rfl⟩ | ⟨rfl, -, -, private_⟩ | ⟨record, rfl, rfl, doomed, judged⟩
      · exact .inr (.inr (.inl ⟨attempt, rfl, before⟩))
      · exact .inr (.inr (.inr (.inl ⟨private_, before⟩)))
      · exact .inr (.inr (.inr (.inr ⟨record, rfl, before, doomed.2.1, judged⟩)))

omit [DecidableEq ι] in
theorem Fair.apart (fair : Fair system byName w self call) (apart : other ≠ self) (attempt : Nat)
    : ¬call.touches (.staging other attempt) := by
  cases fair with
  | @looks call looks => cases call <;> first | exact id | exact absurd looks (by simp [Directories.Call.looks])
  | create | unlink | unlinkAt => exact id
  | mkdir place =>
      rintro rfl
      rcases place with wrong | ⟨attempt, same⟩
      · cases wrong
      · cases same
        exact apart rfl
  | publish attempt =>
      rintro (same | same)
      · cases same
        exact apart rfl
      · cases same
  | fence => rintro (same | same) <;> cases same
  | detach plain private_ =>
      rintro (same | rfl)
      · cases same
      · exact private_ trivial
  | rmdir place =>
      rintro rfl
      rcases place with wrong | own
      · cases wrong
      · exact apart own

theorem Fair.placed (fair : Fair system byName w self call) (inv : Inv system w)
    (change : Change w.tree call tree) (placed : Placed w inode)
    : Placed (w.left tree) inode := by
  refine ⟨placed.1.trans_le change.next_le, fun holder attempt there => ?_⟩
  rcases fair.name_new inv change there with
    before | ⟨rfl, -⟩ | ⟨_, wrong, -⟩ | ⟨private_, -⟩ | ⟨_, wrong, -⟩
  · exact placed.2 _ _ before
  · exact absurd placed.1 (lt_irrefl _)
  · cases wrong
  · exact private_ trivial
  · cases wrong

theorem Fair.retired (fair : Fair system byName w self call) (inv : Inv system w)
    (change : Change w.tree call tree) (retired : Retired w inode)
    : Retired (w.left tree) inode := by
  refine ⟨fair.placed inv change retired.1, fun there => ?_⟩
  rcases fair.name_new inv change there with
    before | ⟨rfl, -⟩ | ⟨attempt, -, staged⟩ | ⟨private_, -⟩ | ⟨_, wrong, -⟩
  · exact retired.2 before
  · exact absurd retired.1.1 (lt_irrefl _)
  · exact retired.1.2 _ _ staged
  · exact private_ trivial
  · cases wrong

variable (unique : Function.Injective system.record)
include unique

omit [DecidableEq ι] in
theorem Orphan.foreign (orphan : Orphan system w record)
    (may : w.status (system.process self) ≠ .dead)
    : record ≠ system.record self := by
  obtain ⟨author, rfl, dead⟩ := orphan
  intro same
  cases unique same
  exact may dead

omit [DecidableEq ι] in
theorem Orphan.not_live (orphan : Orphan system w (system.record self)) : ¬Live system w self := by
  obtain ⟨author, same, dead⟩ := orphan
  cases unique same
  intro live
  exact absurd (dead.symm.trans live) (by simp)

theorem Fair.inv (fair : Fair system byName w self call) (inv : Inv system w)
    (change : Change w.tree call tree)
    : Inv system (w.left tree) where
  wf := change.wf inv.wf
  owned held := by
    rcases fair.owner_new change held with before | ⟨rfl, -⟩
    · exact inv.owned before
    · exact ⟨self, rfl⟩
  staging {holder attempt inode record} there held := by
    rcases fair.name_new inv change there with
      before | ⟨-, bare, -⟩ | ⟨_, wrong, -⟩ | ⟨private_, -⟩ | ⟨_, wrong, -⟩
    · rcases fair.owner_new change held with old | ⟨rfl, -, name, at_, place⟩
      · exact inv.staging before old
      · cases inv.wf.names before at_
        rcases place with wrong | ⟨attempt, same⟩
        · cases wrong
        · cases same
          rfl
    · exact absurd (held.symm.trans bare) (by simp)
    · cases wrong
    · exact absurd trivial private_
    · cases wrong
  latest held := by
    have found : tree.owner _ = _ := held
    simp [World.left, found]
  fences {inode record found} there := by
    rcases fair.name_new inv change there with
      before | ⟨-, -, place⟩ | ⟨_, wrong, -⟩ | ⟨private_, -⟩ | ⟨moved, same, lock, held, judged⟩
    · obtain ⟨rfl, last, judged⟩ := inv.fences before
      refine ⟨rfl, ?_, judged⟩
      cases now : tree.owner found with
      | none => simpa [World.left, now] using last
      | some record' =>
          rcases fair.owner_new change now with old | ⟨-, -, name, at_, place⟩
          · cases (inv.latest old).symm.trans last
            simp [World.left, now]
          · cases inv.wf.names before at_
            rcases place with wrong | ⟨_, wrong⟩ <;> cases wrong
    · rcases place with wrong | ⟨_, wrong⟩ <;> cases wrong
    · cases wrong
    · exact absurd trivial private_
    · cases same
      refine ⟨rfl, ?_, judged⟩
      cases now : tree.owner inode with
      | none => simpa [World.left, now] using inv.latest held
      | some record' =>
          rcases fair.owner_new change now with old | ⟨-, bare, -⟩
          · cases old.symm.trans held
            simp [World.left, now]
          · exact absurd (held.symm.trans bare) (by simp)
  judged member author := inv.judged member author
  inside {holder} inside live := by
    obtain ⟨inode, lock, held⟩ := inv.inside inside live
    have foreign : system.record holder ≠ system.record self
        ∨ Name.lock (ι := ι) = .lock ∧ w.inside self = true := by
      by_cases same : holder = self
      · exact .inr ⟨rfl, same ▸ inside⟩
      · exact .inl fun equal => same (unique equal)
    refine ⟨inode, ?_, fair.owner_kept inv change (by trivial) lock held foreign⟩
    rcases fair.name_kept inv change lock held foreign with stays | ⟨-, doomed, -⟩
    · exact stays
    · exact absurd live (doomed.1.not_live unique)
  lapsed h := inv.lapsed h

theorem Fair.sole (fair : Fair system byName w self call) (inv : Inv system w)
    (may : w.status (system.process self) ≠ .dead) (change : Change w.tree call tree)
    (sole : Sole system w inode record)
    : Sole system (w.left tree) inode record := by
  have foreign := sole.1.foreign unique may
  refine ⟨sole.1, fun found there held => ?_⟩
  rcases fair.owner_new change held with old | ⟨same, -⟩
  · rcases fair.name_new inv change there with
      before | ⟨-, bare, -⟩ | ⟨attempt, -, staged⟩ | ⟨private_, -⟩ | ⟨_, wrong, -⟩
    · exact sole.2 found before old
    · exact absurd (Eq.trans (Eq.symm held) bare) (by simp)
    · exact absurd (inv.staging staged old) foreign
    · exact absurd trivial private_
    · cases wrong
  · exact absurd same foreign

theorem Fair.doomed (fair : Fair system byName w self call) (inv : Inv system w)
    (may : w.status (system.process self) ≠ .dead) (change : Change w.tree call tree)
    (doomed : Doomed system w inode record)
    : Doomed system (w.left tree) inode record := by
  obtain ⟨orphan, held, place⟩ := doomed
  have foreign := orphan.foreign unique may
  rcases place with lock | fence
  · refine ⟨orphan, fair.owner_kept inv change (by trivial) lock held (.inl foreign), ?_⟩
    rcases fair.name_kept inv change lock held (.inl foreign) with stays | ⟨-, -, -, moved⟩
    · exact .inl stays
    · exact .inr moved
  · refine ⟨orphan, fair.owner_kept inv change (by trivial) fence held (.inl foreign), ?_⟩
    rcases fair.name_kept inv change fence held (.inl foreign) with stays | ⟨wrong, -⟩
    · exact .inr stays
    · cases wrong

theorem Fair.rely (fair : Fair system byName w self call) (inv : Inv system w)
    (change : Change w.tree call tree) (apart : other ≠ self)
    : Rely system byName other w (w.left tree) := by
  have foreign : system.record other ≠ system.record self := fun same => apart (unique same)
  have record : ∀ {inode}, tree.owner inode = some (system.record other) →
      w.tree.owner inode = some (system.record other) := by
    intro inode held
    rcases fair.owner_new change held with old | ⟨same, -⟩
    · exact old
    · exact absurd same foreign
  refine ⟨rfl, id, fun _ => id, record, fun {inode} last => ?_,
    fun {name inode} shared there held => ?_, fun plain inode held => ?_, fun attempt => change.names_frame (fair.apart apart attempt),
    fun {attempt inode} there => ?_⟩
  · cases now : tree.owner inode with
    | none => simpa [World.left, now] using last
    | some record' =>
        simp only [World.left, now, Option.some_or, Option.some.injEq] at last
        exact inv.latest (record (last ▸ now))
  · refine ⟨fair.owner_kept inv change shared there held (.inl foreign), ?_⟩
    rcases fair.name_kept inv change there held (.inl foreign) with
      stays | ⟨rfl, doomed, judged, moved⟩
    · exact .inl stays
    · exact .inr ⟨rfl, doomed.1.not_live unique, judged, moved⟩
  · exact fair.unerased inv change plain held (foreign ·)
  · cases held : w.tree.owner inode with
    | some record' =>
        cases inv.staging there held
        exact fair.owner_kept inv change (by trivial) there held (.inl foreign)
    | none =>
        cases now : tree.owner inode with
        | none => exact now
        | some record' =>
            rcases fair.owner_new change now with old | ⟨-, -, name, at_, place⟩
            · exact absurd (old.symm.trans held) (by simp)
            · cases inv.wf.names there at_
              rcases place with wrong | ⟨_, same⟩
              · cases wrong
              · cases same
                exact absurd rfl apart

end

section
variable [DecidableEq P] (unique : Function.Injective system.record)
include unique

theorem Fair.guarantees {call : Directories.Call (Name ι) String}
    {tree : Directories.Tree (Name ι) String} (fair : Fair system byName w self call)
    (inv : Inv system w) (may : w.status (system.process self) ≠ .dead)
    (change : Change w.tree call tree)
    : (protocol system byName).Guarantees (.holder self) w (w.left tree) where
  inv := fair.inv unique inv change
  grows := ⟨id, fair.placed inv change, fair.retired inv change,
    fair.sole unique inv may change, fair.doomed unique inv may change, fun _ => id⟩
  others other apart := by
    cases other with
    | holder other => exact fair.rely unique inv change fun same => apart (same ▸ rfl)
    | recoverer _ | fate _ => trivial

end

end PiFabric.Locks
