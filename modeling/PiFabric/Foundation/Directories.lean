import Mathlib

/-! Directories that hold at most one record each, and the calls on them as POSIX has them. A name
leads to an inode; an inode is used for one directory only.
-/

namespace PiFabric.Directories

inductive Errno
  | enoent | eexist | enotempty | eperm | eacces | eio
  deriving DecidableEq, Repr

inductive Fault
  | eperm | eacces | eio
  deriving DecidableEq, Repr

def Fault.errno : Fault → Errno
  | .eperm => .eperm
  | .eacces => .eacces
  | .eio => .eio

variable {N R : Type}

structure Tree (N R : Type) where
  names : N → Option Nat
  owner : Nat → Option R
  next : Nat

inductive Call (N R : Type)
  | lstat (name : N)
  | opendir (name : N)
  | fstat (inode : Nat)
  | mkdir (name : N)
  | rmdir (name : N)
  | rename (name target : N)
  | read (name : N)
  | create (name : N) (record : R)
  | unlink (name : N)
  | readAt (inode : Nat)
  | unlinkAt (inode : Nat)

/-- What a call that succeeds returns: the inode, the record or nothing. -/
def Value : Call N R → Type
  | .lstat _ | .opendir _ | .fstat _ => Nat
  | .read _ | .readAt _ => R
  | .mkdir _ | .rmdir _ | .rename _ _ | .create _ _ | .unlink _ | .unlinkAt _ => Unit

abbrev Reply (call : Call N R) : Type :=
  Except Errno (Value call)

def Call.looks : Call N R → Bool
  | .lstat _ | .opendir _ | .fstat _ | .read _ | .readAt _ => true
  | .mkdir _ | .rmdir _ | .rename _ _ | .create _ _ | .unlink _ | .unlinkAt _ => false

/-- A call leads these names elsewhere. -/
def Call.touches : Call N R → N → Prop
  | .mkdir name, other | .rmdir name, other => name = other
  | .rename name target, other => name = other ∨ target = other
  | _, _ => False

namespace Tree

def empty : Tree N R :=
  ⟨fun _ => none, fun _ => none, 0⟩

section
variable [DecidableEq N] (tree : Tree N R)

def made (name : N) : Tree N R :=
  { names := Function.update tree.names name (some tree.next)
    owner := Function.update tree.owner tree.next none
    next := tree.next + 1 }

def dropped (name : N) : Tree N R :=
  { tree with names := Function.update tree.names name none }

def moved (name target : N) (inode : Nat) : Tree N R :=
  { tree with
    names := Function.update (Function.update tree.names name none) target (some inode) }

def recorded (inode : Nat) (record : Option R) : Tree N R :=
  { tree with owner := Function.update tree.owner inode record }

def effect : (call : Call N R) → Reply call × Tree N R
  | .lstat name | .opendir name =>
      match tree.names name with
      | none => (.error .enoent, tree)
      | some inode => (.ok inode, tree)
  | .fstat inode => (.ok inode, tree)
  | .mkdir name =>
      match tree.names name with
      | none => (.ok (), tree.made name)
      | some _ => (.error .eexist, tree)
  | .rmdir name =>
      match tree.names name with
      | none => (.error .enoent, tree)
      | some inode =>
          match tree.owner inode with
          | none => (.ok (), tree.dropped name)
          | some _ => (.error .enotempty, tree)
  | .rename name target =>
      match tree.names name with
      | none => (.error .enoent, tree)
      | some inode =>
          if name = target then (.ok (), tree)
          else match (tree.names target).bind tree.owner with
          | none => (.ok (), tree.moved name target inode)
          | some _ => (.error .enotempty, tree)
  | .read name =>
      match (tree.names name).bind tree.owner with
      | none => (.error .enoent, tree)
      | some record => (.ok record, tree)
  | .create name record =>
      match tree.names name with
      | none => (.error .enoent, tree)
      | some inode =>
          match tree.owner inode with
          | none => (.ok (), tree.recorded inode (some record))
          | some _ => (.error .eexist, tree)
  | .unlink name =>
      match tree.names name with
      | none => (.error .enoent, tree)
      | some inode =>
          match tree.owner inode with
          | none => (.error .enoent, tree)
          | some _ => (.ok (), tree.recorded inode none)
  | .readAt inode =>
      match tree.owner inode with
      | none => (.error .enoent, tree)
      | some record => (.ok record, tree)
  | .unlinkAt inode =>
      match tree.owner inode with
      | none => (.error .enoent, tree)
      | some _ => (.ok (), tree.recorded inode none)

/-- What a call replies and leaves, where it may also fail and then does nothing. -/
def respond (call : Call N R) : Option Fault → Reply call × Tree N R
  | some fault => (.error fault.errno, tree)
  | none => tree.effect call

end

/-- A directory has one name at most, and was made. -/
structure WF (tree : Tree N R) : Prop where
  names : ∀ {name other inode}, tree.names name = some inode → tree.names other = some inode →
    name = other
  bound : ∀ {name inode}, tree.names name = some inode → inode < tree.next
  made : ∀ {inode record}, tree.owner inode = some record → inode < tree.next

theorem WF.empty : (empty : Tree N R).WF where
  names h := nomatch h
  bound h := nomatch h
  made h := nomatch h

variable [DecidableEq N] {tree tree' : Tree N R} {fault : Option Fault} {call : Call N R}
  {reply : Reply call} {name target other : N} {inode : Nat} {record : R}

/-- The ways in which a call changes the tree. -/
inductive Change (tree : Tree N R) : Call N R → Tree N R → Prop
  | none {call : Call N R} : Change tree call tree
  | made {name : N} (free : tree.names name = .none) : Change tree (.mkdir name) (tree.made name)
  | dropped {name : N} {inode : Nat} (at_ : tree.names name = some inode)
      (bare : tree.owner inode = .none)
      : Change tree (.rmdir name) (tree.dropped name)
  | moved {name target : N} {inode : Nat} (at_ : tree.names name = some inode)
      (apart : name ≠ target)
      (bare : ∀ replaced, tree.names target = some replaced → tree.owner replaced = .none)
      : Change tree (.rename name target) (tree.moved name target inode)
  | created {name : N} {record : R} {inode : Nat} (at_ : tree.names name = some inode)
      (bare : tree.owner inode = .none)
      : Change tree (.create name record) (tree.recorded inode (some record))
  | unlinked {name : N} {inode : Nat} (at_ : tree.names name = some inode)
      : Change tree (.unlink name) (tree.recorded inode .none)
  | unlinkedAt {inode : Nat} : Change tree (.unlinkAt inode) (tree.recorded inode .none)

@[simp]
theorem moved_target (tree : Tree N R) (name target : N) (inode : Nat)
    : (tree.moved name target inode).names target = some inode :=
  Function.update_self ..

@[simp]
theorem dropped_self (tree : Tree N R) (name : N) : (tree.dropped name).names name = none :=
  Function.update_self ..

theorem dropped_of_ne (tree : Tree N R) (apart : other ≠ name)
    : (tree.dropped name).names other = tree.names other :=
  Function.update_of_ne apart ..

theorem moved_of_ne (tree : Tree N R) (notSource : other ≠ name) (notTarget : other ≠ target)
    (inode : Nat)
    : (tree.moved name target inode).names other = tree.names other :=
  (Function.update_of_ne notTarget ..).trans (Function.update_of_ne notSource ..)

theorem moved_source (tree : Tree N R) (apart : name ≠ target) (inode : Nat)
    : (tree.moved name target inode).names name = none :=
  (Function.update_of_ne apart ..).trans (Function.update_self ..)

theorem effect_change (tree : Tree N R) (call : Call N R)
    : Change tree call (tree.effect call).2 := by
  cases call with
  | lstat name | opendir name | read name | readAt inode =>
      simp only [effect]
      split <;> exact .none
  | fstat inode => exact .none
  | mkdir name =>
      simp only [effect]
      split
      · next free => exact .made free
      · exact .none
  | rmdir name =>
      simp only [effect]
      split
      · exact .none
      · next inode at_ =>
          split
          · next bare => exact .dropped at_ bare
          · exact .none
  | rename name target =>
      simp only [effect]
      split
      · exact .none
      · next inode at_ =>
          split
          · exact .none
          · next apart =>
              split
              · next bare =>
                  refine .moved at_ apart fun replaced there => ?_
                  simpa [there] using bare
              · exact .none
  | create name record =>
      simp only [effect]
      split
      · exact .none
      · next inode at_ =>
          split
          · next bare => exact .created at_ bare
          · exact .none
  | unlink name =>
      simp only [effect]
      split
      · exact .none
      · next inode at_ =>
          split
          · exact .none
          · exact .unlinked at_
  | unlinkAt inode =>
      simp only [effect]
      split
      · exact .none
      · exact .unlinkedAt

/-- Every call changes the tree in one of these ways, or not at all. -/
theorem respond_change (h : tree.respond call fault = (reply, tree')) : Change tree call tree' := by
  cases fault with
  | some fault =>
      cases h
      exact .none
  | none =>
      have left : tree' = (tree.effect call).2 := congrArg Prod.snd h.symm
      exact left ▸ effect_change tree call

theorem Change.next_le (h : Change tree call tree') : tree.next ≤ tree'.next := by
  cases h with
  | made free => exact Nat.le_succ _
  | none | dropped | moved | created | unlinked | unlinkedAt => exact le_rfl

/-- A record stays in its directory unless it is unlinked. -/
theorem Change.owner_kept (h : Change tree call tree') (wf : tree.WF)
    (held : tree.owner inode = some record)
    : tree'.owner inode = some record ∨ call = .unlinkAt inode
      ∨ ∃ name, call = .unlink name ∧ tree.names name = some inode := by
  cases h with
  | none | dropped | moved => exact .inl held
  | made free =>
      have apart : inode ≠ tree.next := (wf.made held).ne
      exact .inl ((Function.update_of_ne apart ..).trans held)
  | @created name written found at_ bare =>
      have apart : inode ≠ found := by
        rintro rfl
        exact absurd (held.symm.trans bare) (by simp)
      exact .inl ((Function.update_of_ne apart ..).trans held)
  | @unlinked name found at_ =>
      by_cases same : inode = found
      · exact .inr (.inr ⟨name, rfl, same ▸ at_⟩)
      · exact .inl ((Function.update_of_ne same ..).trans held)
  | @unlinkedAt found =>
      by_cases same : inode = found
      · exact .inr (.inl (same ▸ rfl))
      · exact .inl ((Function.update_of_ne same ..).trans held)

/-- A record that is found was there, or is the one that the call created. -/
theorem Change.owner_new (h : Change tree call tree') (held : tree'.owner inode = some record)
    : tree.owner inode = some record
      ∨ ∃ name, call = .create name record ∧ tree.names name = some inode
        ∧ tree.owner inode = .none := by
  cases h with
  | none | dropped | moved => exact .inl held
  | made free =>
      by_cases same : inode = tree.next
      · subst same
        exact absurd ((Function.update_self ..).symm.trans held) (by simp)
      · exact .inl ((Function.update_of_ne same ..).symm.trans held)
  | @created name written found at_ bare =>
      by_cases same : inode = found
      · subst same
        cases (Function.update_self ..).symm.trans held
        exact .inr ⟨name, rfl, at_, bare⟩
      · exact .inl ((Function.update_of_ne same ..).symm.trans held)
  | @unlinked name found at_ =>
      by_cases same : inode = found
      · subst same
        exact absurd ((Function.update_self ..).symm.trans held) (by simp)
      · exact .inl ((Function.update_of_ne same ..).symm.trans held)
  | @unlinkedAt found =>
      by_cases same : inode = found
      · subst same
        exact absurd ((Function.update_self ..).symm.trans held) (by simp)
      · exact .inl ((Function.update_of_ne same ..).symm.trans held)

/-- A directory stays at its name unless it is renamed itself; one without a record may also be
removed or replaced.
-/
theorem Change.name_kept (h : Change tree call tree')
    (there : tree.names name = some inode)
    : tree'.names name = some inode
      ∨ (∃ target, call = .rename name target ∧ tree'.names target = some inode)
      ∨ tree.owner inode = .none := by
  cases h with
  | none | created | unlinked | unlinkedAt => exact .inl there
  | @made fresh free =>
      have apart : name ≠ fresh := by
        rintro rfl
        exact absurd (there.symm.trans free) (by simp)
      exact .inl ((Function.update_of_ne apart ..).trans there)
  | @dropped gone found at_ bare =>
      by_cases same : name = gone
      · subst same
        cases there.symm.trans at_
        exact .inr (.inr bare)
      · exact .inl ((Function.update_of_ne same ..).trans there)
  | @moved source target found at_ apart bare =>
      by_cases same : name = target
      · subst same
        exact .inr (.inr (bare _ there))
      · by_cases left : name = source
        · subst left
          cases there.symm.trans at_
          exact .inr (.inl ⟨target, rfl, Function.update_self ..⟩)
        · refine .inl ?_
          simpa [Tree.moved, Function.update_of_ne same, Function.update_of_ne left] using there

/-- What is found at a name was there, was made there or was renamed to it. -/
theorem Change.name_new (h : Change tree call tree') (there : tree'.names name = some inode)
    : tree.names name = some inode ∨ call = .mkdir name ∧ inode = tree.next
      ∨ ∃ source, call = .rename source name ∧ tree.names source = some inode := by
  cases h with
  | none | created | unlinked | unlinkedAt => exact .inl there
  | @made fresh free =>
      by_cases same : name = fresh
      · subst same
        cases (Function.update_self ..).symm.trans there
        exact .inr (.inl ⟨rfl, rfl⟩)
      · exact .inl ((Function.update_of_ne same ..).symm.trans there)
  | @dropped gone found at_ bare =>
      by_cases same : name = gone
      · subst same
        exact absurd ((Function.update_self ..).symm.trans there) (by simp)
      · exact .inl ((Function.update_of_ne same ..).symm.trans there)
  | @moved source target found at_ apart bare =>
      by_cases same : name = target
      · subst same
        cases (Function.update_self ..).symm.trans there
        exact .inr (.inr ⟨source, rfl, at_⟩)
      · have before := (Function.update_of_ne same ..).symm.trans there
        by_cases left : name = source
        · subst left
          exact absurd ((Function.update_self ..).symm.trans before) (by simp)
        · exact .inl ((Function.update_of_ne left ..).symm.trans before)

theorem Change.names_frame (h : Change tree call tree') (apart : ¬call.touches name)
    : tree'.names name = tree.names name := by
  cases h with
  | none | created | unlinked | unlinkedAt => rfl
  | made free => exact Function.update_of_ne (fun same => apart same.symm) ..
  | dropped at_ bare => exact Function.update_of_ne (fun same => apart same.symm) ..
  | moved at_ other bare =>
      refine (Function.update_of_ne (fun same => apart (.inr (Eq.symm same))) ..).trans ?_
      exact Function.update_of_ne (fun same => apart (.inl (Eq.symm same))) ..

/-- A renamed directory has left its old name. -/
theorem Change.name_left (h : Change tree (.rename name target) tree')
    (there : tree'.names name = some inode)
    : tree' = tree := by
  cases h with
  | none => rfl
  | moved at_ apart bare =>
      have gone := (Function.update_of_ne apart ..).symm.trans there
      exact absurd ((Function.update_self ..).symm.trans gone) (by simp)

theorem Change.wf (h : Change tree call tree') (wf : tree.WF) : tree'.WF where
  names {first second inode} hf hs := by
    cases h with
    | none | created | unlinked | unlinkedAt => exact wf.names hf hs
    | @made fresh free =>
        simp only [Tree.made, Function.update_apply] at hf hs
        split at hf <;> split at hs
        · simp_all
        · cases hf
          exact absurd (wf.bound hs) (by omega)
        · cases hs
          exact absurd (wf.bound hf) (by omega)
        · exact wf.names hf hs
    | @dropped gone found at_ bare =>
        simp only [Tree.dropped, Function.update_apply] at hf hs
        split at hf <;> split at hs
        · cases hf
        · cases hf
        · cases hs
        · exact wf.names hf hs
    | @moved source target found at_ apart bare =>
        simp only [Tree.moved, Function.update_apply] at hf hs
        split at hf <;> split at hs
        · simp_all
        · split at hs
          · cases hs
          · next other =>
              cases hf
              exact absurd (wf.names hs at_) other
        · split at hf
          · cases hf
          · next other =>
              cases hs
              exact absurd (wf.names hf at_) other
        · split at hf <;> split at hs
          · cases hf
          · cases hf
          · cases hs
          · exact wf.names hf hs
  bound there := by
    rcases h.name_new there with before | ⟨made, rfl⟩ | ⟨source, -, before⟩
    · exact (wf.bound before).trans_le h.next_le
    · subst made
      cases h with
      | none => exact absurd (wf.bound there) (by omega)
      | made free => exact Nat.lt_succ_self _
    · exact (wf.bound before).trans_le h.next_le
  made held := by
    rcases h.owner_new held with before | ⟨name, -, at_, -⟩
    · exact (wf.made before).trans_le h.next_le
    · exact (wf.bound at_).trans_le h.next_le

theorem effect_of_ok {value : Value call} (h : tree.respond call fault = (.ok value, tree'))
    : tree.effect call = (.ok value, tree') := by
  cases fault with
  | none => exact h
  | some fault => cases h

theorem effect_of_enoent (h : tree.respond call fault = (.error .enoent, tree'))
    : tree.effect call = (.error .enoent, tree') := by
  cases fault with
  | none => exact h
  | some fault => cases fault <;> cases h

/-- A call that fails does nothing. -/
theorem respond_error {error : Errno} (h : tree.respond call fault = (.error error, tree'))
    : tree' = tree := by
  cases fault with
  | some fault =>
      cases h
      rfl
  | none =>
      have effect : tree.effect call = (.error error, tree') := h
      cases call <;> simp only [Tree.effect] at effect <;> grind

/-- Where there is no directory, there is nothing to empty or remove. -/
theorem respond_absent (free : tree.names name = none)
    (is : call = .unlink name ∨ call = .rmdir name)
    (h : tree.respond call fault = (reply, tree'))
    : tree' = tree := by
  rcases is with rfl | rfl
  · cases respond_change h with
    | none => rfl
    | unlinked at_ => exact absurd (free.symm.trans at_) (by simp)
  · cases respond_change h with
    | none => rfl
    | dropped at_ bare => exact absurd (free.symm.trans at_) (by simp)

/-- A call that only looks does nothing. -/
theorem respond_looks (looks : call.looks = true)
    (h : tree.respond call fault = (reply, tree'))
    : tree' = tree := by
  cases respond_change h <;> first | rfl | exact absurd looks (by simp [Call.looks])

theorem names_of_lstat (h : tree.respond (.lstat name) fault = (.ok inode, tree'))
    : tree.names name = some inode := by
  have effect := effect_of_ok h
  simp only [Tree.effect] at effect
  grind

theorem absent_of_lstat (h : tree.respond (.lstat name) fault = (.error .enoent, tree'))
    : tree.names name = none := by
  have effect := effect_of_enoent h
  simp only [Tree.effect] at effect
  grind

theorem names_of_opendir (h : tree.respond (.opendir name) fault = (.ok inode, tree'))
    : tree.names name = some inode := by
  have effect := effect_of_ok h
  simp only [Tree.effect] at effect
  grind

theorem eq_of_fstat {found : Nat} (h : tree.respond (.fstat inode) fault = (.ok found, tree'))
    : found = inode := by
  have effect := effect_of_ok h
  cases effect
  rfl

theorem owner_of_read (h : tree.respond (.read name) fault = (.ok record, tree'))
    : ∃ inode, tree.names name = some inode ∧ tree.owner inode = some record := by
  have effect := effect_of_ok h
  simp only [Tree.effect] at effect
  cases found : (tree.names name).bind tree.owner with
  | none => simp [found] at effect
  | some held =>
      simp only [found] at effect
      cases effect
      exact Option.bind_eq_some_iff.mp found

theorem owner_of_readAt (h : tree.respond (.readAt inode) fault = (.ok record, tree'))
    : tree.owner inode = some record := by
  have effect := effect_of_ok h
  simp only [Tree.effect] at effect
  grind

theorem names_of_mkdir {value : Unit} (h : tree.respond (.mkdir name) fault = (.ok value, tree'))
    : tree'.names name = some tree.next ∧ tree'.owner tree.next = none := by
  have effect := effect_of_ok h
  simp only [Tree.effect] at effect
  split at effect
  · cases effect
    exact ⟨Function.update_self .., Function.update_self ..⟩
  · cases effect

/-- A record is created in the directory that the name leads to then. -/
theorem owner_of_create {value : Unit}
    (h : tree.respond (.create name record) fault = (.ok value, tree'))
    : ∃ inode, tree.names name = some inode ∧ tree.owner inode = none
      ∧ tree' = tree.recorded inode (some record) := by
  have effect := effect_of_ok h
  simp only [Tree.effect] at effect
  split at effect
  · cases effect
  · next inode at_ =>
      split at effect
      · next bare =>
          cases effect
          exact ⟨inode, at_, bare, rfl⟩
      · cases effect

theorem names_of_rename {value : Unit} (apart : name ≠ target)
    (h : tree.respond (.rename name target) fault = (.ok value, tree'))
    : ∃ inode, tree.names name = some inode ∧ tree' = tree.moved name target inode := by
  have effect := effect_of_ok h
  simp only [Tree.effect, if_neg apart] at effect
  split at effect
  · cases effect
  · next inode at_ =>
      split at effect
      · cases effect
        exact ⟨inode, at_, rfl⟩
      · cases effect

/-- After a removal, or where there was nothing to remove, the name is free. -/
theorem free_of_rmdir {reply : Except Errno Unit}
    (h : tree.respond (.rmdir name) fault = (reply, tree'))
    (removed : reply = .ok () ∨ reply = .error .enoent)
    : tree'.names name = none := by
  rcases removed with rfl | rfl
  · have effect := effect_of_ok h
    simp only [Tree.effect] at effect
    split at effect
    · cases effect
    · split at effect
      · cases effect
        exact Function.update_self ..
      · cases effect
  · have effect := effect_of_enoent h
    simp only [Tree.effect] at effect
    split at effect
    · next free =>
        cases effect
        exact free
    · split at effect <;> cases effect

end Tree

end PiFabric.Directories
