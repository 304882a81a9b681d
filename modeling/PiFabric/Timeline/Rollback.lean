import PiFabric.Timeline.Alone

/-! A transition that runs alone. Until its marker is published, all it wrote is what it applied;
when it is rejected and its rollback goes through, every key holds what it held, and what was
deleted again is reported.
-/

namespace PiFabric.Timeline

open JsString
open Interleaving (Prog)

variable {ι : Type} {w w' : World ι} {thread : ι} {maxReadEvents : Nat} {working : Bool} {key : Key}

abbrev keysOf (writes : List AppliedWrite) : List Key :=
  writes.map (·.key)

structure Applied (s : Cas.Store Key Value) (w : World ι) (applied : List AppliedWrite) : Prop where
  sound : w.store.Sound
  grown : s.Extends w.store
  distinct : (keysOf applied).Nodup
  before : ∀ write ∈ applied, write.before = s.get write.key
  present : ∀ write ∈ applied, (w.store.rows write.key).isSome
  others : ∀ key ∉ keysOf applied,
    w.store.rows key = s.rows key ∧ w.store.version key = s.version key

theorem Applied.nil (sound : w.store.Sound) : Applied w.store w [] where
  sound := sound
  grown := .refl _
  distinct := List.nodup_nil
  before := by simp
  present := by simp
  others := fun _ _ => ⟨rfl, rfl⟩

variable {s : Cas.Store Key Value} {applied : List AppliedWrite}

theorem Applied.write {value : Value} {before : Option Entry} {written : Entry}
    (h : Applied s w applied) (fresh : key ∉ keysOf applied) (same : before = s.get key)
    (store : w'.store = w.store.write key (some value))
    : Applied s w' ({ key, before, written } :: applied) where
  sound := store ▸ h.sound.write _
  grown := store ▸ h.grown.trans (h.sound.extends_write _)
  distinct := List.nodup_cons.mpr ⟨fresh, h.distinct⟩
  before := by
    intro write member
    rcases List.mem_cons.mp member with rfl | inside
    · exact same
    · exact h.before write inside
  present := by
    intro write member
    rcases List.mem_cons.mp member with rfl | inside
    · simp [store]
    · have apart : write.key ≠ key := fun same => fresh (same ▸ List.mem_map_of_mem inside)
      rw [store, Cas.Store.rows_write_of_ne apart]
      exact h.present write inside
  others := by
    intro other outside
    obtain ⟨apart, rest⟩ := not_or.mp (fun inside => outside (List.mem_cons.mpr inside))
    rw [store, Cas.Store.rows_write_of_ne apart, Cas.Store.version_write_of_ne apart]
    exact h.others other rest

theorem Applied.of_store (h : Applied s w applied) (store : w'.store = w.store)
    : Applied s w' applied := by
  constructor
  case sound => exact store ▸ h.sound
  case grown => exact store ▸ h.grown
  case distinct => exact h.distinct
  case before => exact h.before
  case present => exact store ▸ h.present
  case others => exact store ▸ h.others

/-- The ledger writes, as far as they went. -/
structure Wrote (s : Cas.Store Key Value) (w w' : World ι) (applied : List AppliedWrite)
    (updates : List LedgerUpdate) (result : List AppliedWrite × Option Failure) : Prop where
  writes : Applied s w' result.1
  log : w'.log = w.log
  keys : ∀ key ∈ keysOf result.1, key ∈ keysOf applied ∨ key ∈ updates.map (·.key)
  failed : result.2 ≠ none → working = false
    ∨ ∃ update ∈ updates, update.expectedVersion ≠ s.version update.key

theorem ensures_applyUpdates {updates : List LedgerUpdate} (h : Applied s w applied)
    (before : ∀ update ∈ updates, update.before = s.get update.key)
    (distinct : (updates.map (·.key)).Nodup)
    (fresh : ∀ update ∈ updates, update.key ∉ keysOf applied)
    : Ensures maxReadEvents working thread
      (fun result left => @Wrote _ working s w left applied updates result)
      (applyUpdates updates applied) w := by
  induction updates generalizing w applied with
  | nil => exact ⟨h, rfl, fun key => .inl, by simp⟩
  | cons update rest ih =>
      refine Prog.Ensures.bind ensures_put ?_
      have unwritten := h.others update.key (fresh update (by simp))
      rintro outcome left (same | excused | apart)
      · obtain ⟨first, others⟩ := List.nodup_cons.mp distinct
        have applies : Applied s (w.write update.key (some (.ledger update.value)))
            ({
              key := update.key
              before := update.before
              written := (.ledger update.value, w.store.issue update.key)
            } :: applied) :=
          h.write (fresh update (by simp)) (before update (by simp)) rfl
        refine Prog.Ensures.weaken (ih applies (fun found member => before found (by simp [member]))
          others ?_) ?_
        · intro found member inside
          rcases List.mem_cons.mp inside with same | inside
          · exact first (same ▸ List.mem_map_of_mem member)
          · exact fresh found (by simp [member]) inside
        · rintro result last wrote
          refine ⟨wrote.writes, wrote.log, fun key member => ?_, fun failed => ?_⟩
          · rcases wrote.keys key member with inside | later
            · rcases List.mem_cons.mp inside with rfl | inside
              · exact .inr (by simp)
              · exact .inl inside
            · exact .inr (List.mem_cons_of_mem _ later)
          · refine (wrote.failed failed).imp_right ?_
            rintro ⟨found, member, apart⟩
            exact ⟨found, List.mem_cons_of_mem _ member, apart⟩
      · exact ⟨h, rfl, fun key => .inl, fun _ => .inl excused.1⟩
      · refine ⟨h, rfl, fun key => .inl, fun _ => .inr ⟨update, by simp, ?_⟩⟩
        rw [← unwritten.2]
        exact Ne.symm apart

/-- What `advanceHeadWithBefore` ends in. -/
inductive HeadOutcome (w : World ι) (input : AdvanceHeadInput)
    : Except Failure (Entry × Option Entry) → World ι → Prop
  | advanced {left : World ι}
      (store : left.store = w.store.write .current (some (.head input.payload)))
      (log : left.log = w.log)
      : HeadOutcome w input
          (.ok ((.head input.payload, w.store.issue .current), w.store.get .current)) left
  | refused {failure : Failure} {left : World ι} (store : left.store = w.store)
      (log : left.log = w.log) : HeadOutcome w input (.error failure) left

/-- Whether the attempts that are left suffice for a store that works: one at the version of the
head, and one more to learn it where there is no head.
-/
def Suffices (w : World ι) (version attempts : Nat) : Prop :=
  1 ≤ attempts ∧ w.store.version .current = version
    ∨ 2 ≤ attempts ∧ w.store.rows .current = none

/-- A head is put over what the last attempt read, by induction on the attempts that are left. -/
theorem ensures_advanceAttempts {input : AdvanceHeadInput} {attempts version : Nat}
    {found : World ι} (store : found.store = w.store) (log : found.log = w.log)
    : Ensures maxReadEvents working thread (fun outcome left => HeadOutcome w input outcome left
        ∧ (working = true → Suffices w version attempts → ∃ entry, outcome = .ok entry))
      (advanceAttempts input attempts version).run found := by
  induction attempts generalizing version found with
  | zero =>
      refine ⟨.refused store log, fun _ suffices_ => ?_⟩
      rcases suffices_ with ⟨bound, -⟩ | ⟨bound, -⟩ <;> omega
  | succ attempts ih =>
      have excused {failure : Failure} {left : World ι} (same : left.store = w.store)
          (log : left.log = w.log) (excused : Excused working failure)
          : HeadOutcome w input (.error failure) left
            ∧ (working = true → Suffices w version (attempts + 1) →
              ∃ entry, (.error failure : Except Failure (Entry × Option Entry)) = .ok entry) :=
        ⟨.refused same log, fun works => absurd (works.symm.trans excused.1) (by simp)⟩
      refine ensures_reads ensures_get (fun failure => excused store log) ?_
      refine ensures_attempt ensures_advance ?_
      rintro outcome left (same | excuse | apart)
      · refine ⟨?_, fun _ _ => ⟨_, rfl⟩⟩
        rw [store]
        exact .advanced (by simp [World.advanced, World.write, store])
          (by simp [World.advanced, World.write, log])
      · obtain ⟨message, rfl⟩ := excuse.2
        exact excused store log excuse
      · refine Prog.Ensures.try_ ensures_reread ?_ ?_
        · rintro current last ⟨same, sameLog, read | ⟨failure, none_, -⟩⟩
          · obtain rfl := Except.ok.inj read
            refine ensures_check (fun cause refused => ?_) fun _ => ?_
            · refine ⟨.refused (same.trans store) (sameLog.trans log), fun _ suffices_ => ?_⟩
              rcases suffices_ with ⟨-, current⟩ | ⟨-, absent⟩
              · exact absurd (store ▸ current) apart
              · simp [Cas.Store.get, store, absent, revalidate] at refused
            · refine Prog.Ensures.weaken (ih (same.trans store) (sameLog.trans log)) ?_
              rintro outcome left ⟨stated, suffices_⟩
              refine ⟨stated, fun works enough => suffices_ works ?_⟩
              rcases enough with ⟨-, current⟩ | ⟨bound, absent⟩
              · exact absurd (store ▸ current) apart
              · exact .inl ⟨by omega, by simp [Cas.Store.get, store, absent]⟩
          · exact absurd none_ (by simp)
        · rintro error last ⟨same, sameLog, none_ | ⟨failure, isError, excuse⟩⟩
          · exact absurd none_ (by simp)
          · exact excused (same.trans store) (sameLog.trans log)
              (Except.error.inj isError ▸ excuse)

structure Undone (w w' : World ι) (writes : List AppliedWrite) (rollback : Rollback) : Prop where
  sound : w'.store.Sound
  grown : w.store.Extends w'.store
  log : w'.log = w.log
  others : ∀ key ∉ keysOf writes,
    w'.store.rows key = w.store.rows key ∧ w'.store.version key = w.store.version key
  restored : rollback.errors = [] → ∀ write ∈ writes,
    w'.store.rows write.key = write.before.map (·.1)
  deleted : ∀ report ∈ rollback.deleted, report.1 ∈ keysOf writes
    ∧ report.2 = w'.store.version report.1 ∧ w.store.version report.1 < report.2
  distinct : (rollback.deleted.map (·.1)).Nodup
  reported : rollback.errors = [] → ∀ write ∈ writes, write.before = none →
    (w.store.rows write.key).isSome →
      (write.key, w'.store.version write.key) ∈ rollback.deleted

inductive UndoOutcome (w : World ι) (write : AppliedWrite)
    : Except Failure (Option Nat) → World ι → Prop
  | restored {before : Entry} (same : write.before = some before)
      : UndoOutcome w write (.ok none) (w.write write.key (some before.1))
  | deleted (none_ : write.before = none)
      : UndoOutcome w write (.ok (some (w.store.issue write.key))) (w.write write.key none)
  | absent (none_ : write.before = none) (gone : w.store.rows write.key = none)
      : UndoOutcome w write (.ok none) w
  | failed {failure : Failure} : UndoOutcome w write (.error failure) w

theorem ensures_undo {write : AppliedWrite}
    : Ensures maxReadEvents working thread (UndoOutcome w write) (undo write).run w := by
  unfold undo
  split
  · next before same =>
      refine Prog.Ensures.bind ensures_put ?_
      rintro outcome left (_ | _ | _)
      · exact .restored same
      · exact .failed
      · exact .failed
  · next none_ =>
      refine Prog.Ensures.weaken ensures_delete ?_
      rintro outcome left (_ | gone | _)
      · exact .deleted none_
      · exact .absent none_ gone
      · exact .failed

/-- The undoing of a write is at its key. -/
structure UndoneAt (w middle : World ι) (key : Key) : Prop where
  sound : middle.store.Sound
  grown : w.store.Extends middle.store
  log : middle.log = w.log
  others : ∀ other, other ≠ key → middle.store.rows other = w.store.rows other
    ∧ middle.store.version other = w.store.version other

theorem undoneAt_write (sound : w.store.Sound) (value : Option Value)
    : UndoneAt w (w.write key value) key where
  sound := sound.write _
  grown := sound.extends_write _
  log := rfl
  others := fun _ apart =>
    ⟨Cas.Store.rows_write_of_ne apart _, Cas.Store.version_write_of_ne apart _⟩

theorem UndoOutcome.at_ {write : AppliedWrite} {undone : Except Failure (Option Nat)}
    {middle : World ι} (outcome : UndoOutcome w write undone middle) (sound : w.store.Sound)
    : UndoneAt w middle write.key := by
  have same : UndoneAt w w write.key := ⟨sound, .refl _, rfl, fun _ _ => ⟨rfl, rfl⟩⟩
  cases outcome with
  | restored _ => exact undoneAt_write sound _
  | deleted _ => exact undoneAt_write sound _
  | absent _ _ => exact same
  | failed => exact same

section
variable {middle : World ι} {write : AppliedWrite} {rest : List AppliedWrite} {others : Rollback}

theorem UndoneAt.others_cons (at_ : UndoneAt w middle write.key) (h : Undone middle w' rest others)
    (key : Key) (outside : key ∉ keysOf (write :: rest))
    : w'.store.rows key = w.store.rows key ∧ w'.store.version key = w.store.version key := by
  obtain ⟨apart, left⟩ := not_or.mp (fun inside => outside (List.mem_cons.mpr inside))
  obtain ⟨rows, version⟩ := h.others key left
  obtain ⟨rows', version'⟩ := at_.others key apart
  exact ⟨rows.trans rows', version.trans version'⟩

theorem UndoneAt.deleted_rest (at_ : UndoneAt w middle write.key)
    (fresh : write.key ∉ keysOf rest) (h : Undone middle w' rest others)
    (report : Key × Nat) (member : report ∈ others.deleted)
    : report.1 ∈ keysOf (write :: rest) ∧ report.2 = w'.store.version report.1
      ∧ w.store.version report.1 < report.2 := by
  obtain ⟨inside, version, above⟩ := h.deleted report member
  have apart : report.1 ≠ write.key := fun same => fresh (same ▸ inside)
  exact ⟨List.mem_cons_of_mem _ inside, version, (at_.others _ apart).2 ▸ above⟩

theorem UndoneAt.reported_rest (at_ : UndoneAt w middle write.key)
    (fresh : write.key ∉ keysOf rest) (h : Undone middle w' rest others)
    (complete : others.errors = []) (found : AppliedWrite) (inside : found ∈ rest)
    (none_ : found.before = none) (live : (w.store.rows found.key).isSome)
    : (found.key, w'.store.version found.key) ∈ others.deleted := by
  have apart : found.key ≠ write.key := fun same => fresh (same ▸ List.mem_map_of_mem inside)
  exact h.reported complete found inside none_ ((at_.others _ apart).1 ▸ live)

theorem UndoOutcome.undone {undone : Except Failure (Option Nat)}
    (outcome : UndoOutcome w write undone middle) (sound : w.store.Sound)
    (fresh : write.key ∉ keysOf rest) (h : Undone middle w' rest others)
    : Undone w w' (write :: rest) (others.add write.key undone) := by
  have at_ := outcome.at_ sound
  have here := h.others write.key fresh
  have grown := at_.grown.trans h.grown
  have log := h.log.trans at_.log
  have deleted := at_.deleted_rest fresh h
  cases outcome with
  | @restored before same =>
      refine ⟨h.sound, grown, log, at_.others_cons h, fun complete found member => ?_, deleted,
        h.distinct, fun complete found member none_ live => ?_⟩
      · rcases List.mem_cons.mp member with rfl | inside
        · rw [here.1, same]
          exact Cas.Store.rows_write_self _
        · exact h.restored complete found inside
      · rcases List.mem_cons.mp member with rfl | inside
        · exact absurd (same.symm.trans none_) (by simp)
        · exact at_.reported_rest fresh h complete found inside none_ live
  | deleted none_ =>
      have version : w'.store.version write.key = w.store.issue write.key :=
        here.2.trans (Cas.Store.version_write_self _)
      refine ⟨h.sound, grown, log, at_.others_cons h, fun complete found member => ?_,
        fun report member => ?_, List.nodup_cons.mpr ⟨fun inside => ?_, h.distinct⟩,
        fun complete found member before live => ?_⟩
      · rcases List.mem_cons.mp member with rfl | inside
        · rw [here.1, none_]
          exact Cas.Store.rows_write_self _
        · exact h.restored complete found inside
      · rcases List.mem_cons.mp member with rfl | inside
        · exact ⟨by simp, version.symm, sound.issue_bounds.1⟩
        · exact deleted report inside
      · obtain ⟨report, member, same⟩ := List.mem_map.mp inside
        have named : report.1 = write.key := same
        exact fresh (named ▸ (h.deleted report member).1)
      · rcases List.mem_cons.mp member with rfl | inside
        · exact version ▸ List.mem_cons_self
        · exact List.mem_cons_of_mem _ (at_.reported_rest fresh h complete found inside before live)
  | absent none_ gone =>
      refine ⟨h.sound, grown, log, at_.others_cons h, fun complete found member => ?_, deleted,
        h.distinct, fun complete found member before live => ?_⟩
      · rcases List.mem_cons.mp member with rfl | inside
        · rw [here.1, gone, none_]
          rfl
        · exact h.restored complete found inside
      · rcases List.mem_cons.mp member with rfl | inside
        · simp [gone] at live
        · exact at_.reported_rest fresh h complete found inside before live
  | failed =>
      exact ⟨h.sound, grown, log, at_.others_cons h, fun none_ => absurd none_ (by simp [Rollback.add]),
        deleted, h.distinct, fun none_ => absurd none_ (by simp [Rollback.add])⟩

end

variable {writes : List AppliedWrite}

theorem ensures_rollbackWrites (sound : w.store.Sound) (distinct : (keysOf writes).Nodup)
    : Ensures maxReadEvents working thread
      (fun rollback left => Undone w left writes rollback) (rollbackWrites writes) w := by
  induction writes generalizing w with
  | nil =>
      exact ⟨sound, .refl _, rfl, fun _ _ => ⟨rfl, rfl⟩, by simp, by simp, List.nodup_nil, by simp⟩
  | cons write rest ih =>
      obtain ⟨fresh, distinct⟩ := List.nodup_cons.mp distinct
      refine Prog.Ensures.bind ensures_undo fun undone middle outcome => ?_
      refine Prog.Ensures.bind (ih (outcome.at_ sound).sound distinct) fun others left h => ?_
      exact outcome.undone sound fresh h

/-- What may still be reported: no version beyond its key's, above every report so far, and no key
in two pieces.
-/
structure Reportable (w : World ι) (pieces : List (List (Key × Nat))) : Prop where
  bound : ∀ piece ∈ pieces, ∀ report ∈ piece, report.2 ≤ w.store.version report.1
  above : ∀ published ∈ w.log, ∀ report ∈ published.event.payload.deleted,
    ∀ piece ∈ pieces, ∀ later ∈ piece, report.1 = later.1 → report.2 < later.2
  apart : pieces.Pairwise fun first second => ∀ report ∈ first, ∀ later ∈ second, report.1 ≠ later.1

/-- What the publishing of rejections ends in. -/
structure Announced (w w' : World ι) (transitionId : JsString) (pieces : List (List (Key × Nat)))
    (outcome : Except Failure Unit) : Prop where
  kept : Kept w'
  store : w'.store = w.store
  log : w.log <+: w'.log
  reported : outcome = .ok () → ∀ piece ∈ pieces, ∃ published ∈ w'.log.drop w.log.length,
    published.event.payload = .rejected transitionId piece

variable {transitionId : JsString}

theorem Reportable.rest {piece : List (Key × Nat)} {pieces : List (List (Key × Nat))}
    {choice : Choice} (h : Reportable w (piece :: pieces))
    : Reportable (w.append thread choice (.rejected transitionId piece) none) pieces := by
  obtain ⟨alone, apart⟩ := List.pairwise_cons.mp h.apart
  refine ⟨fun found member => h.bound found (by simp [member]), ?_, apart⟩
  intro published member report inside found later last among same
  rcases mem_append.mp member with before | rfl
  · exact h.above published before report inside found (by simp [later]) last among same
  · exact absurd same (alone found later report inside last among)

theorem mem_drop_of_prefix {choice : Choice} {payload : Payload} {published : Published ι}
    {evidence : Option Evidence}
    (h : published ∈ w'.log.drop (w.append thread choice payload evidence).log.length)
    : published ∈ w'.log.drop w.log.length := by
  have longer : (w.append thread choice payload evidence).log.length = w.log.length + 1 := by
    simp [World.append]
  rw [longer, ← List.drop_drop] at h
  exact List.mem_of_mem_drop h

theorem ensures_publishRejections {pieces : List (List (Key × Nat))} (kept : Kept w)
    (may : Reportable w pieces)
    : Ensures maxReadEvents working thread
      (fun outcome left => Announced w left transitionId pieces outcome)
      (publishRejections transitionId pieces).run w := by
  induction pieces generalizing w with
  | nil => exact ⟨kept, rfl, List.prefix_refl _, by simp⟩
  | cons piece rest ih =>
      refine Prog.Ensures.try_ ensures_publish ?_ ?_
      · rintro event left ⟨appends⟩
        next choice =>
          have reports := @Reports.append _ w thread choice (.rejected transitionId piece) none
            kept.reports (may.bound piece (by simp))
            (fun published member report inside later last =>
              may.above published member report inside piece (by simp) later last)
          refine Prog.Ensures.weaken (ih ⟨kept.store, reports⟩ may.rest) fun outcome last h => ?_
          refine ⟨h.kept, h.store, (List.prefix_append ..).trans h.log, fun done found member => ?_⟩
          rcases List.mem_cons.mp member with rfl | later
          · obtain ⟨more, same⟩ := h.log
            refine ⟨⟨⟨choice.id, choice.sequence, .rejected transitionId found⟩, thread,
              w.store.version .current, none⟩, ?_, rfl⟩
            rw [← same]
            simp [World.append]
          · obtain ⟨published, inside, named⟩ := h.reported done found later
            exact ⟨published, mem_drop_of_prefix inside, named⟩
      · rintro error left ⟨⟩
        exact ⟨kept, rfl, List.prefix_refl _, by simp⟩

theorem chunks_apart {items : List (Key × Nat)} {size : Nat} (distinct : (items.map (·.1)).Nodup)
    : (chunks size items).Pairwise fun first second =>
        ∀ report ∈ first, ∀ later ∈ second, report.1 ≠ later.1 := by
  have slices : ((List.range ((items.length + size - 1) / size)).map fun index =>
      (items.drop (index * size)).take size).Pairwise fun first second =>
        ∀ report ∈ first, ∀ later ∈ second, report.1 ≠ later.1 := by
    refine List.pairwise_map.mpr ((List.pairwise_lt_range).imp ?_)
    intro first second before report inside later last
    have early : report ∈ items.take (second * size) := by
      have within : first * size + size ≤ second * size := by
        rw [← Nat.succ_mul]
        exact Nat.mul_le_mul_right size before
      rw [List.take_drop] at inside
      exact List.take_subset_take_left _ (by omega) (List.mem_of_mem_drop inside)
    have late : later ∈ items.drop (second * size) := List.mem_of_mem_take last
    have whole := distinct
    rw [← List.take_append_drop (second * size) items, List.map_append] at whole
    obtain ⟨-, -, apart⟩ := List.nodup_append.mp whole
    exact apart _ (List.mem_map_of_mem early) _ (List.mem_map_of_mem late)
  unfold chunks
  split
  · exact List.pairwise_singleton ..
  · exact slices

theorem sublist_of_mem_chunks {α : Type} {items piece : List α} {size : Nat}
    (h : piece ∈ chunks size items)
    : piece.Sublist items := by
  unfold chunks at h
  split at h
  · rw [List.mem_singleton.mp h]
    exact List.nil_sublist _
  · obtain ⟨index, -, rfl⟩ := List.mem_map.mp h
    exact (List.take_sublist ..).trans (List.drop_sublist ..)

/-- What a rejected transition ends in, on a store it has applied writes to. Where its rollback and
its report went through, every key holds what it held, and what is gone since is reported.
-/
structure Rejection (s : Cas.Store Key Value) (w w' : World ι) : Prop where
  rows : ∀ key, w'.store.rows key = s.rows key
  reported : ∀ key, s.rows key = none → w'.store.version key ≠ s.version key →
    ∃ published ∈ w'.log.drop w.log.length,
      deletedIn key published.event = some (w'.store.version key)

inductive RejectOutcome (s : Cas.Store Key Value) (w : World ι)
    : TransitionError → World ι → Prop
  | rejected {left : World ι} {cause : Failure} {errors : List (Key × Failure)}
      {reporting : Option Failure} (kept : Kept left) (log : w.log <+: left.log)
      (complete : errors = [] → reporting = none → Rejection s w left)
      : RejectOutcome s w (.rejected cause errors reporting) left

theorem Applied.rejection {middle : World ι} {rollback : Rollback} (h : Applied s w writes)
    (undone : Undone w middle writes rollback)
    (announced : Announced middle w' transitionId (chunks eventRollbackLimit rollback.deleted)
      (.ok ())) (complete : rollback.errors = [])
    : Rejection s w w' := by
  constructor
  · intro key
    rw [announced.store]
    by_cases inside : key ∈ keysOf writes
    · obtain ⟨write, member, rfl⟩ := List.mem_map.mp inside
      rw [undone.restored complete write member, h.before write member, Cas.Store.get,
        Option.map_map]
      cases s.rows write.key <;> rfl
    · exact (undone.others key inside).1.trans (h.others key inside).1
  · intro key gone moved
    rw [announced.store] at moved ⊢
    have inside : key ∈ keysOf writes := by
      by_contra outside
      exact moved ((undone.others key outside).2.trans (h.others key outside).2)
    obtain ⟨write, member, rfl⟩ := List.mem_map.mp inside
    have before : write.before = none := by simp [h.before write member, Cas.Store.get, gone]
    have deleted := undone.reported complete write member before (h.present write member)
    obtain ⟨piece, isPiece, among⟩ := exists_mem_chunks (by decide : 0 < eventRollbackLimit) deleted
    obtain ⟨published, late, named⟩ := announced.reported rfl piece isPiece
    refine ⟨published, undone.log ▸ late, deletedIn_of_mem ?_ (by simpa [named, Payload.deleted])⟩
    rw [named]
    exact undone.distinct.sublist ((sublist_of_mem_chunks isPiece).map _)

theorem ensures_reject {cause : Failure} (h : Applied s w writes) (kept : Kept w)
    : Ensures maxReadEvents working thread (fun error left => RejectOutcome s w error left)
      (reject transitionId writes cause) w := by
  refine Prog.Ensures.bind (ensures_rollbackWrites h.sound h.distinct) ?_
  intro rollback middle undone
  have versions : ∀ key, w.store.version key ≤ middle.store.version key := undone.grown.version
  have middleKept : Kept middle := ⟨undone.sound, kept.reports.of_versions undone.log versions⟩
  have may : Reportable middle (chunks eventRollbackLimit rollback.deleted) := by
    refine ⟨fun piece isPiece report inside => ?_, fun published member report inside piece isPiece
      later last same => ?_, chunks_apart undone.distinct⟩
    · exact (undone.deleted report (mem_of_mem_chunks isPiece inside)).2.1.le
    · have old := kept.reports.bound published (undone.log ▸ member) report inside
      have new := (undone.deleted later (mem_of_mem_chunks isPiece last)).2.2
      rw [same] at old
      omega
  refine Prog.Ensures.bind (ensures_publishRejections middleKept may) ?_
  intro outcome left announced
  refine .rejected announced.kept (undone.log ▸ announced.log) fun complete reported => ?_
  cases outcome with
  | ok value => exact h.rejection undone announced complete
  | error failure => exact absurd reported (by simp [errorOf])

/-- A transition that was made, or refused for what was asked of it. -/
def Accepted : Except TransitionError (Event × Option Head) → Prop
  | .ok _ => True
  | .error (.refused failure) => failure.declines = true
  | .error _ => False

/-- What a transition needs of the store before it, to be accepted by one that works. -/
structure Ready (maxReadEvents : Nat) (w : World ι) (files : List JsString) : Prop where
  reads : HeadReads maxReadEvents w
  known : ∀ file ∈ files, knownVersion maxReadEvents w (.complexity file)
    = w.store.version (.complexity file)

/-- The proof of the head, or the head as it is. -/
theorem ensures_markHeadCommitted {value : HeadValue} {pending : Entry} (kept : Kept w)
    : Ensures maxReadEvents working thread (fun outcome left => Kept left ∧ left.log = w.log
        ∧ (working = true → w.store.version .current = pending.2 → ∃ entry, outcome = .ok entry))
      (markHeadCommitted value pending).run w := by
  refine ensures_attempt ensures_put ?_
  rintro outcome left (same | excused | apart)
  · exact ⟨kept.write _, rfl, fun _ _ => ⟨_, rfl⟩⟩
  · obtain ⟨unworking, message, rfl⟩ := excused
    exact ⟨kept, rfl, fun works => absurd (works.symm.trans unworking) (by simp)⟩
  · refine ensures_reads ensures_get ?_ ⟨kept, rfl, fun _ same => absurd same apart⟩
    exact fun failure excused => ⟨kept, rfl, fun _ same => absurd same apart⟩

theorem Rejection.since {first : World ι} (h : Rejection s w w') (log : first.log <+: w.log)
    : Rejection s first w' where
  rows := h.rows
  reported := by
    intro key gone moved
    obtain ⟨published, late, reported⟩ := h.reported key gone moved
    refine ⟨published, ?_, reported⟩
    obtain ⟨more, same⟩ := log
    rw [← same, List.length_append, ← List.drop_drop] at late
    exact List.mem_of_mem_drop late

/-- What a transition ends in once its proposal was published, on the store it found. -/
structure Concluded (working : Bool) (s : Cas.Store Key Value) (w w' : World ι) (ready : Prop)
    (outcome : Except TransitionError (Event × Option Head)) : Prop where
  kept : Kept w'
  log : w.log <+: w'.log
  unrefused : ∀ failure, outcome ≠ .error (.refused failure)
  rejected : ∀ cause, outcome = .error (.rejected cause [] none) → Rejection s w w'
  accepted : working = true → ready → Accepted outcome

theorem Concluded.since {first : World ι} {ready : Prop}
    {outcome : Except TransitionError (Event × Option Head)}
    (h : Concluded working s w w' ready outcome) (log : first.log <+: w.log)
    : Concluded working s first w' ready outcome where
  kept := h.kept
  log := log.trans h.log
  unrefused := h.unrefused
  rejected := fun cause same => (h.rejected cause same).since log
  accepted := h.accepted

/-- A transition that is rejected is one that could not be made ready, on a store that works. -/
theorem ensures_rejected {cause : Failure} {ready : Prop} (h : Applied s w writes) (kept : Kept w)
    (unready : working = true → ¬ready)
    : Ensures maxReadEvents working thread
      (fun outcome left => Concluded working s w left ready outcome)
      (.error <$> reject transitionId writes cause) w := by
  refine Prog.Ensures.map (Prog.Ensures.weaken (ensures_reject h kept) ?_)
  rintro error left ⟨kept, log, complete⟩
  refine ⟨kept, log, by simp, ?_, fun works ready_ => absurd ready_ (unready works)⟩
  rintro found ⟨rfl⟩
  exact complete rfl rfl

variable {input : TransitionInput}

theorem ensures_commit {proposal : Proposal} (h : Applied s w applied) (kept : Kept w)
    (fresh : Key.current ∉ keysOf applied)
    : Ensures maxReadEvents working thread (fun outcome left => Concluded working s w left
        (Suffices w proposal.expectedVersion casRetryLimit) outcome)
      (commit input proposal applied) w := by
  refine Prog.Ensures.bind (ensures_advanceAttempts rfl rfl) ?_
  rintro outcome middle ⟨advance, suffices_⟩
  cases advance with
  | refused store log =>
      refine Prog.Ensures.weaken (ensures_rejected (h.of_store store) (kept.of_same store log)
        fun works ready => ?_) fun outcome left concluded => concluded.since (log ▸ List.prefix_refl _)
      exact absurd (suffices_ works ready) (by simp)
  | advanced store log =>
      have middleKept : Kept middle := (kept.write (some (.head _))).of_same store log
      refine Prog.Ensures.bind ensures_publish ?_
      rintro published left (⟨appends⟩ | excused)
      · next choice =>
          have markedKept : Kept (middle.append thread choice (.committed proposal.event.id) none) :=
            ⟨middleKept.store, middleKept.reports.append_quiet rfl⟩
          refine Prog.Ensures.bind (ensures_markHeadCommitted markedKept) ?_
          rintro marked last ⟨lastKept, lastLog, works⟩
          have grown : w.log <+: last.log := by
            rw [lastLog, ← log]
            exact List.prefix_append ..
          cases marked with
          | ok entry => exact ⟨lastKept, grown, by simp, by simp, fun _ _ => trivial⟩
          | error failure =>
              refine ⟨lastKept, grown, by simp, by simp, fun working_ _ => ?_⟩
              obtain ⟨entry, none_⟩ := works working_ (by simp [World.append, store])
              exact absurd none_ (by simp)
      · have before : w.store.get .current = s.get .current := by
          obtain ⟨rows, version⟩ := h.others _ fresh
          simp [Cas.Store.get, rows, version]
        refine Prog.Ensures.weaken (ensures_rejected (h.write fresh before store) middleKept
          fun works _ => ?_) fun outcome left concluded => concluded.since (log ▸ List.prefix_refl _)
        exact absurd (works.symm.trans excused.1) (by simp)

structure Ended (maxReadEvents : Nat) (working : Bool) (w w' : World ι) (files : List JsString)
    (outcome : Except TransitionError (Event × Option Head)) : Prop where
  kept : Kept w'
  log : w.log <+: w'.log
  refused : ∀ failure, outcome = .error (.refused failure) → w' = w
  rejected : ∀ cause, outcome = .error (.rejected cause [] none) →
    Rejection w.store w w' ∧ HeadReads maxReadEvents w
  accepted : working = true → Ready maxReadEvents w files → Accepted outcome

theorem Concluded.ended {first : World ι} {files : List JsString} {ready : Prop}
    {outcome : Except TransitionError (Event × Option Head)}
    (h : Concluded working first.store w w' ready outcome) (log : first.log <+: w.log)
    (reads : HeadReads maxReadEvents first)
    (enough : working = true → Ready maxReadEvents first files → ready)
    : Ended maxReadEvents working first w' files outcome where
  kept := h.kept
  log := log.trans h.log
  refused := fun failure same => absurd same (h.unrefused failure)
  rejected := fun cause same => ⟨(h.rejected cause same).since log, reads⟩
  accepted := fun works ready => h.accepted works (enough works ready)

/-- The head's version is the one a transition goes by, or there is no head. -/
theorem suffices_of_knownVersion {middle : World ι} {version : Nat}
    (known : version = knownVersion maxReadEvents w .current)
    (rows : middle.store.rows .current = w.store.rows .current)
    (versions : middle.store.version .current = w.store.version .current)
    : Suffices middle version casRetryLimit := by
  cases found : w.store.rows .current with
  | none => exact .inr ⟨by decide, rows.trans found⟩
  | some value =>
      refine .inl ⟨by decide, versions.trans ?_⟩
      simp [known, knownVersion, Cas.Store.get, found]

/-- A transition that runs alone on files that are distinct. -/
theorem ensures_transition (kept : Kept w) (distinct : (input.complexity.getD []).Nodup)
    : Ensures maxReadEvents working thread (fun outcome left =>
        Ended maxReadEvents working w left (input.complexity.getD []) outcome)
      (transition input) w := by
  refine Prog.Ensures.bind ensures_propose ?_
  rintro outcome left (⟨appends, reads, updates, expected, event⟩ | ⟨cause⟩)
  · next proposal choice =>
      have proposedKept : Kept (w.append thread choice (.transition .proposed proposal.data) none) :=
        ⟨kept.store, kept.reports.append_quiet rfl⟩
      have start : Applied w.store
          (w.append thread choice (.transition .proposed proposal.data) none) [] :=
        .nil proposedKept.store
      have keys : (proposal.updates.map (·.key)).Nodup :=
        (distinct.map fun _ _ => Key.complexity.inj).sublist updates.keys
      refine Prog.Ensures.bind (ensures_applyUpdates start (fun update member => ?_) keys
        (by simp)) ?_
      · obtain ⟨file, -, prepared⟩ := updates.prepared update member
        exact prepared.before
      · rintro ⟨applied, failed⟩ middle wrote
        have middleKept : Kept middle := ⟨wrote.writes.sound,
          proposedKept.reports.of_versions wrote.log wrote.writes.grown.version⟩
        have log : w.log <+: middle.log := by
          rw [wrote.log]
          exact List.prefix_append ..
        have headFree : Key.current ∉ keysOf applied := by
          intro inside
          rcases wrote.keys _ inside with none_ | among
          · exact absurd none_ (by simp)
          · obtain ⟨file, -, same⟩ := List.mem_map.mp (updates.keys.subset among)
            exact absurd same (by simp)
        cases failed with
        | some failure =>
            refine Prog.Ensures.weaken
              (@ensures_rejected _ _ _ _ working _ _ _ _ False wrote.writes middleKept fun _ => id)
              fun outcome last concluded => concluded.ended log reads fun works ready => ?_
            rcases wrote.failed (by simp) with unworking | ⟨update, member, apart⟩
            · exact absurd (works.symm.trans unworking) (by simp)
            · obtain ⟨file, isFile, prepared⟩ := updates.prepared update member
              refine apart (prepared.expected.trans ?_)
              rw [prepared.key]
              exact ready.known file isFile
        | none =>
            refine Prog.Ensures.weaken (ensures_commit wrote.writes middleKept headFree)
              fun outcome last concluded => concluded.ended log reads fun _ _ => ?_
            obtain ⟨rows, version⟩ := wrote.writes.others _ headFree
            exact suffices_of_knownVersion expected rows version
  · refine ⟨kept, List.prefix_refl _, fun _ _ => rfl, by simp, fun works ready => ?_⟩
    rcases cause with excused | declines | unread
    · exact absurd (works.symm.trans excused.1) (by simp)
    · exact declines
    · exact absurd ready.reads unread

/-- Files that are refused leave everything as it was. -/
theorem ensures_refuseFiles {failure : Failure} (declines : failure.declines = true)
    : Ensures maxReadEvents working thread (fun outcome left => left = w ∧ (working = true →
        HeadReads maxReadEvents w → (refusal outcome).declines = true))
      (refuseFiles input failure).run w := by
  refine ensures_headPart (fun cause excused => ⟨rfl, fun works reads => ?_⟩) fun _ => ?_
  · rcases excused with excused | declined | unread
    · exact absurd (works.symm.trans excused.1) (by simp)
    · exact declined
    · exact absurd reads unread
  · exact ensures_outside (show Call.now.Outside from trivial) fun _ => ⟨rfl, fun _ _ => declines⟩

theorem declines_of_normalizeFiles {relative : JsString → JsString}
    {files normalized : List JsString} {failure : Failure}
    (h : normalizeFiles relative normalized files = .error failure)
    : failure.declines = true := by
  induction files generalizing normalized with
  | nil => exact absurd h (by simp [normalizeFiles])
  | cons file rest ih =>
      simp only [normalizeFiles] at h
      split_ifs at h
      · exact ih h
      · cases h
        rfl
      · exact ih h
      · exact ih h

theorem ensures_transitionOf {relative : JsString → JsString} (kept : Kept w)
    : Ensures maxReadEvents working thread (fun outcome left =>
        Ended maxReadEvents working w left (filesOf relative input) outcome)
      (transitionOf relative input) w := by
  unfold transitionOf filesOf
  split
  · next none_ =>
      have whole := @ensures_transition _ w thread maxReadEvents working input kept (by simp [none_])
      simpa [none_] using whole
  · split
    · next files normalized same =>
        exact @ensures_transition _ w thread maxReadEvents working
          { input with complexity := some normalized } kept (nodup_normalizeComplexityFiles same)
    · next files failure same =>
        refine Prog.Ensures.bind (ensures_refuseFiles (declines_of_normalizeFiles same)) ?_
        rintro outcome left ⟨rfl, declines⟩
        exact ⟨kept, List.prefix_refl _, fun _ _ => rfl, by simp,
          fun works ready => declines works ready.reads⟩

end PiFabric.Timeline
