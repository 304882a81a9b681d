import PiFabric.Locks.Programs

/-! Those who clear the lock of holders that are not live, and what becomes of processes.
-/

namespace PiFabric.Locks

open Directories (Errno Fault)
open Directories.Tree (Change)
open Interleaving (Prog Protocol)

variable {ι P α : Type} [DecidableEq ι] [DecidableEq P] {system : System ι P}
  {w : World ι P} {self : ι} {thread : Thread ι P} {byName : Bool}

/-- The lock is cleared: what had a record went to its fence, and its holder is not live. -/
structure Clears (system : System ι P) (w w' : World ι P) : Prop where
  owner : w'.tree.owner = w.tree.owner
  latest : w'.latest = w.latest
  next : w'.tree.next = w.tree.next
  wf : w'.tree.WF
  status : w'.status = w.status
  inside : w'.inside = w.inside
  arrived : ∀ {name inode}, w'.tree.names name = some inode → w.tree.names name = some inode
    ∨ name = .dead inode (w.tree.owner inode) ∧ w.tree.names .lock = some inode
      ∧ ∀ record ∈ w.tree.owner inode, (inode, record) ∈ w'.judged
  stays : ∀ {name inode record}, w.tree.names name = some inode →
    w.tree.owner inode = some record → w'.tree.names name = some inode
      ∨ name = .lock ∧ (inode, record) ∈ w'.judged
        ∧ w'.tree.names (.dead inode (some record)) = some inode
  bare : ∀ self attempt, w'.tree.names (.staging self attempt)
    = w.tree.names (.staging self attempt)
  judged : ∀ found ∈ w.judged, found ∈ w'.judged
  lost : ∀ {inode record self}, (inode, record) ∈ w'.judged → system.record self = record →
    ¬Live system w' self

variable {w' : World ι P}

omit [DecidableEq ι] [DecidableEq P] in
theorem Clears.inv (h : Clears system w w') (inv : Inv system w) : Inv system w' where
  wf := h.wf
  owned held := inv.owned (h.owner ▸ held)
  staging there held := inv.staging ((h.bare _ _).symm.trans there) (h.owner ▸ held)
  latest held := h.latest ▸ inv.latest (h.owner ▸ held)
  fences there := by
    rw [h.latest]
    rcases h.arrived there with before | ⟨same, -, judged⟩
    · obtain ⟨same, last, judged⟩ := inv.fences before
      exact ⟨same, last, h.judged _ judged⟩
    · obtain ⟨rfl, held⟩ := Name.dead.inj same
      exact ⟨rfl, inv.latest held.symm, judged _ held.symm⟩
  judged := h.lost
  inside {self} inside live := by
    have before : Live system w self := by simpa [Live, h.status] using live
    obtain ⟨inode, lock, held⟩ := inv.inside (h.inside ▸ inside) before
    refine ⟨inode, ?_, h.owner ▸ held⟩
    rcases h.stays lock held with stays | ⟨-, judged, -⟩
    · exact stays
    · exact absurd live (h.lost judged rfl)
  lapsed lapsed := inv.lapsed (h.status ▸ lapsed)

omit [DecidableEq ι] [DecidableEq P] in
theorem Clears.orphan (h : Clears system w w') {record : String}
    (orphan : Orphan system w record)
    : Orphan system w' record := by
  obtain ⟨self, same, dead⟩ := orphan
  exact ⟨self, same, by rw [h.status, dead]⟩

omit [DecidableEq ι] [DecidableEq P] in
theorem Clears.placed (h : Clears system w w') {inode : Nat} (placed : Placed w inode)
    : Placed w' inode :=
  ⟨h.next ▸ placed.1, fun self attempt there => placed.2 _ _ ((h.bare self attempt) ▸ there)⟩

omit [DecidableEq ι] [DecidableEq P] in
theorem Clears.grows (h : Clears system w w') : Grows system w w' where
  dead dead := by rw [h.status, dead]
  placed := h.placed
  retired retired := by
    refine ⟨h.placed retired.1, fun there => ?_⟩
    rcases h.arrived there with before | ⟨wrong, -⟩
    · exact retired.2 before
    · cases wrong
  sole sole := by
    refine ⟨h.orphan sole.1, fun found there held => ?_⟩
    rcases h.arrived there with before | ⟨wrong, -⟩
    · exact sole.2 found before (h.owner ▸ held)
    · cases wrong
  doomed doomed := by
    obtain ⟨orphan, held, place⟩ := doomed
    refine ⟨h.orphan orphan, h.owner ▸ held, ?_⟩
    rcases place with lock | fence
    · exact (h.stays lock held).imp id fun moved => moved.2.2
    · rcases h.stays fence held with stays | ⟨wrong, -⟩
      · exact .inr stays
      · cases wrong
  judged := h.judged

omit [DecidableEq ι] [DecidableEq P] in
theorem Clears.rely (h : Clears system w w') (other : ι) : Rely system byName other w w' where
  inside := congrFun h.inside other
  live live := by simpa [Live, h.status] using live
  judged := h.judged
  record held := h.owner ▸ held
  latest last := h.latest ▸ last
  kept shared there held := by
    refine ⟨h.owner ▸ held, (h.stays there held).imp id ?_⟩
    rintro ⟨lock, judged, moved⟩
    exact ⟨lock, h.lost judged rfl, judged, moved⟩
  unerased _ _ held := h.owner ▸ held
  staging attempt := h.bare other attempt
  staged _ := by rw [h.owner]

theorem Clears.guarantees (h : Clears system w w') (inv : Inv system w)
    : (protocol system byName).Guarantees thread w w' where
  inv := h.inv inv
  grows := h.grows
  others other _ := by
    cases other with
    | holder other => exact h.rely other
    | recoverer _ | fate _ => trivial

omit [DecidableEq ι] [DecidableEq P] in
theorem Clears.refl (inv : Inv system w) : Clears system w w :=
  ⟨rfl, rfl, rfl, inv.wf, rfl, rfl, .inl, fun there _ => .inl there, fun _ _ => rfl,
    fun _ => id, inv.judged⟩

omit [DecidableEq P] in
/-- A removal takes a directory that has no record. -/
theorem clears_rmdir {fault : Option Fault} {reply : Except Errno Unit}
    {tree : Directories.Tree (Name ι) String} (inv : Inv system w)
    (answered : w.tree.respond (.rmdir .lock) fault = (reply, tree))
    : Clears system w (w.left tree) := by
  have change := Directories.Tree.respond_change answered
  have wf := change.wf inv.wf
  cases change with
  | none =>
      rw [inv.left_self]
      exact .refl inv
  | @dropped _ inode at_ bare =>
      refine ⟨rfl, inv.latest_left rfl, rfl, wf, rfl, rfl, fun {name found} there => .inl ?_,
        fun {name found record} there held => .inl ?_,
        fun self attempt => w.tree.dropped_of_ne (by simp), fun _ => id, inv.judged⟩
      · have apart : name ≠ .lock := by
          rintro rfl
          exact absurd ((w.tree.dropped_self .lock).symm.trans there) (by simp)
        exact (w.tree.dropped_of_ne apart).symm.trans there
      · have apart : name ≠ .lock := by
          rintro rfl
          cases there.symm.trans at_
          exact absurd (held.symm.trans bare) (by simp)
        exact (w.tree.dropped_of_ne apart).trans there

omit [DecidableEq P] in
/-- What a recoverer renames had the record that it looked for, of a holder that is not live. -/
theorem clears_recover {fault : Option Fault} {reply : Except Errno Unit}
    {tree : Directories.Tree (Name ι) String} {inode : Nat} {owner : Option ι}
    (unique : Function.Injective system.record) (inv : Inv system w)
    (owned : w.ownedBy system owner inode) (at_ : w.tree.names .lock = some inode)
    (answered : w.tree.respond (.rename .lock (.dead inode (owner.map system.record))) fault
      = (reply, tree))
    : Clears system w
      { w.left tree with
        judged := ((owner.map system.record).toList.map fun record => (inode, record))
          ++ w.judged } := by
  obtain ⟨held, notLive⟩ := owned
  have lost : ∀ {found record self}, (found, record)
      ∈ ((owner.map system.record).toList.map fun record => (inode, record)) ++ w.judged →
      system.record self = record → ¬Live system w self := by
    intro found record self member author
    rcases List.mem_append.mp member with fresh | old
    · cases owner with
      | none => simp at fresh
      | some holder =>
          simp only [Option.map_some, Option.toList_some, List.map_cons, List.map_nil,
            List.mem_singleton, Prod.mk.injEq] at fresh
          cases unique (author.trans fresh.2)
          exact notLive _ rfl
    · exact inv.judged old author
  have judged : ∀ found ∈ w.judged, found
      ∈ ((owner.map system.record).toList.map fun record => (inode, record)) ++ w.judged :=
    fun found member => List.mem_append_right _ member
  have change := Directories.Tree.respond_change answered
  have wf := change.wf inv.wf
  cases change with
  | none =>
      exact ⟨rfl, inv.latest_left rfl, rfl, wf, rfl, rfl, .inl, fun there _ => .inl there,
        fun _ _ => rfl, judged, lost⟩
  | @moved _ _ found there apart bare =>
      cases at_.symm.trans there
      have arrived := w.tree.moved_target .lock (.dead inode (owner.map system.record)) inode
      refine ⟨rfl, inv.latest_left rfl, rfl, wf, rfl, rfl, fun {name found} there' => ?_,
        fun {name found record} there' held' => ?_,
        fun self attempt => w.tree.moved_of_ne (by simp) (by simp) inode, judged, lost⟩
      · by_cases target : name = .dead inode (owner.map system.record)
        · subst target
          cases arrived.symm.trans there'
          refine .inr ⟨by rw [held], at_, fun record holds => ?_⟩
          have label := held.symm.trans holds
          rw [label]
          exact List.mem_append_left _ (by simp)
        · have source : name ≠ .lock := by
            rintro rfl
            exact absurd ((w.tree.moved_source apart inode).symm.trans there') (by simp)
          exact .inl ((w.tree.moved_of_ne source target inode).symm.trans there')
      · by_cases source : name = .lock
        · subst source
          cases there'.symm.trans at_
          have label := held.symm.trans held'
          refine .inr ⟨rfl, ?_, label ▸ arrived⟩
          rw [label]
          exact List.mem_append_left _ (by simp)
        · have target : name ≠ .dead inode (owner.map system.record) := by
            rintro rfl
            exact absurd (held'.symm.trans (bare _ there')) (by simp)
          exact .inl ((w.tree.moved_of_ne source target inode).trans there')

theorem guarantees_status {process : P} {status : Status} (inv : Inv system w)
    (lost : status ≠ .live) (dead : w.status process = .dead → status = .dead)
    (lapses : status = .lapsed → system.lapses process = true)
    : (protocol system byName).Guarantees thread w
      { w with status := Function.update w.status process status } := by
  have live : ∀ {self}, Live system
      { w with status := Function.update w.status process status } self → Live system w self := by
    intro self live
    by_cases same : system.process self = process
    · have now : Function.update w.status process status (system.process self) = .live := live
      rw [same, Function.update_self] at now
      exact absurd now lost
    · exact (Function.update_of_ne same ..).symm.trans live
  have stillDead : ∀ {other}, w.status other = .dead →
      Function.update w.status process status other = .dead := by
    intro other was
    by_cases same : other = process
    · subst same
      exact (Function.update_self ..).trans (dead was)
    · exact (Function.update_of_ne same ..).trans was
  have orphan : ∀ {record}, Orphan system w record → Orphan system
      { w with status := Function.update w.status process status } record :=
    fun ⟨self, same, was⟩ => ⟨self, same, stillDead was⟩
  refine ⟨⟨inv.wf, inv.owned, inv.staging, inv.latest, inv.fences, ?_, ?_, ?_⟩, ?_, ?_⟩
  · exact fun member author now => inv.judged member author (live now)
  · exact fun inside now => inv.inside inside (live now)
  · intro other lapsed
    by_cases same : other = process
    · subst same
      exact lapses ((Function.update_self ..).symm.trans lapsed)
    · exact inv.lapsed ((Function.update_of_ne same ..).symm.trans lapsed)
  · exact ⟨stillDead, id, id, fun sole => ⟨orphan sole.1, sole.2⟩,
      fun doomed => ⟨orphan doomed.1, doomed.2⟩, fun _ => id⟩
  · intro other _
    cases other with
    | holder other =>
        exact ⟨rfl, live, fun _ => id, id, id, fun _ there held => ⟨held, .inl there⟩,
          fun _ _ => id, fun _ => rfl, fun _ => rfl⟩
    | recoverer _ | fate _ => trivial

theorem sound_recover {number : Nat} (unique : Function.Injective system.record)
    (recoveries : List (Recovery ι)) (w : World ι P)
    : (protocol system byName).Sound (.recoverer number) (fun _ _ => True) (recover recoveries) w := by
  induction recoveries generalizing w with
  | nil => exact fun _ _ => trivial
  | cons first rest ih =>
      cases first with
      | rename owner =>
          intro w₁ later reply left performed
          have inv := later.inv
          refine ⟨?_, ih _⟩
          cases performed with
          | call may performed =>
              simp only [World.perform] at performed
              cases at_ : w₁.tree.names .lock with
              | none =>
                  simp only [at_] at performed
                  cases performed
                  exact .of_refl inv
              | some inode =>
                  simp only [at_] at performed
                  split at performed
                  · next owned =>
                      cases performed
                      exact (clears_recover unique inv owned at_ rfl).guarantees inv
                  · cases performed
                    exact .of_refl inv
      | rmdir =>
          intro w₁ later reply left performed
          have inv := later.inv
          refine ⟨?_, ih _⟩
          cases performed with
          | call may performed =>
              cases performed
              exact (clears_rmdir inv rfl).guarantees inv

theorem sound_befall {process : P} (fates : List Fate) (w : World ι P)
    : (protocol system byName).Sound (.fate process) (fun _ _ => True) (befall process fates) w := by
  induction fates generalizing w with
  | nil => exact fun _ _ => trivial
  | cons first rest ih =>
      cases first with
      | lapses =>
          intro w₁ later reply left performed
          have inv := later.inv
          refine ⟨?_, ih _⟩
          cases performed with
          | call may performed =>
              simp only [World.perform] at performed
              split at performed
              · next allowed =>
                  cases performed
                  exact guarantees_status inv (by simp)
                    (fun dead => absurd (dead.symm.trans allowed.1) (by simp))
                    fun _ => allowed.2
              · cases performed
                exact .of_refl inv
      | exits =>
          intro w₁ later reply left performed
          have inv := later.inv
          refine ⟨?_, ih _⟩
          cases performed with
          | call may performed =>
              cases performed
              exact guarantees_status inv (by simp) (fun _ => rfl) (by simp)

end PiFabric.Locks
