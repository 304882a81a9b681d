import PiFabric.Schedules.File
import PiFabric.Foundation.SortedMerge

/-! Runs of the stores of one mesh root. A schedule that is neither replaced nor unscheduled stays
in the file until a release has appended its event.
-/

namespace PiFabric.Schedules

open JsString Outcome SortedMerge
open Json (serializedBytes)
open Grants (Fate)

/-- The file and the events that were appended to the log; besides, the schedules that were stored, the
ids of those that were replaced or unscheduled, and those of the appends of a release that threw after
they took place.
-/
structure Root where
  file : File
  log : List MeshEvent
  accepted : List MeshSchedule
  withdrawn : List JsString
  threw : List JsString

def emptyRoot : Root := ⟨none, [], [], [], []⟩

def Root.pending (root : Root) : List MeshSchedule :=
  root.file.getD []

/-- How often an event with an id was appended. -/
def Root.times (root : Root) (id : JsString) : Nat :=
  (root.log.map (·.id)).count id

/-- A section under the lock, which a release may follow in the same one. -/
inductive Action where
  | schedule (maxEventBytes : Nat) (now : Int) (id : JsString) (sender : Json)
      (input : ScheduleInput) (aborted : Bool)
  | unschedule (key : JsString)
  | release (now : Int) (fate : JsString → Fate)
  /-- The events that `publish`, or the operation of `transact`, has appended. -/
  | append (events : List MeshEvent)

/-- The file after a write, and the ids that it has no more. -/
def Root.rewrite (root : Root) (file : File) : Root :=
  { root with
    file
    withdrawn := root.withdrawn
      ++ (root.pending.map (·.id)).filter fun id => id ∉ (file.getD []).map (·.id) }

/-- `publish` and `transact` go on where their release throws, so that it is a step of its own; a call
that throws before it writes changes nothing.
-/
def Root.act (localeCompare : JsString → JsString → Ordering) (root : Root) : Action → Option Root
  | .schedule maxEventBytes now id sender input aborted =>
      match makeSchedule maxEventBytes now id sender input with
      | .error _ => some root
      | .ok schedule =>
          match storeSchedule aborted schedule root.file with
          | .error _ => some root
          | .ok file =>
              -- random ids do not collide
              if id ∈ root.accepted.map (·.id) ++ root.log.map (·.id) then none
              else some { root.rewrite file with accepted := root.accepted ++ [schedule] }
  | .unschedule key =>
      match unschedule key root.file with
      | .error _ => some root
      | .ok (file, _) => some (root.rewrite file)
  | .release now fate =>
      let done := releaseDueLocked localeCompare now fate root.file
      some { root with
        file := done.1
        log := root.log ++ done.2.all.map (·.event)
        threw := root.threw ++ done.2.threw.map (·.id) }
  | .append events =>
      if events.any fun event => event.id ∈ root.accepted.map (·.id) then none
      else some { root with log := root.log ++ events }

inductive Reached (localeCompare : JsString → JsString → Ordering) : Root → Prop
  | start : Reached localeCompare emptyRoot
  | act {root next : Root} {action : Action} (before : Reached localeCompare root)
      (done : root.act localeCompare action = some next)
      : Reached localeCompare next

variable {localeCompare : JsString → JsString → Ordering} {file next : File}
  {schedules : List MeshSchedule}

theorem require_ok {condition : Bool} {failure : Failure} (h : require condition failure = .ok ())
    : condition = true := by
  unfold require at h
  split at h
  · assumption
  · cases h

theorem readSchedules_ok (h : readSchedules file = .ok schedules)
    : schedules = file.getD [] ∧ (schedules ≠ [] → fileBytes schedules ≤ maxScheduleFileBytes) := by
  cases file with
  | none =>
      obtain rfl := Except.ok.inj h
      exact ⟨rfl, fun some_ => absurd rfl some_⟩
  | some held =>
      obtain ⟨fits, h⟩ := check_then_eq_ok.mp h
      obtain ⟨-, h⟩ := check_then_eq_ok.mp h
      obtain rfl := Except.ok.inj h
      exact ⟨rfl, fun _ => of_decide_eq_true (require_ok fits)⟩

theorem writeSchedules_ok (h : writeSchedules schedules = .ok next) : next.getD [] = schedules := by
  unfold writeSchedules at h
  split at h
  · next none_ =>
      obtain rfl := Except.ok.inj h
      exact none_.symm
  · split at h
    · cases h
    · obtain rfl := Except.ok.inj h
      rfl

/-- A file is no longer without some of its schedules. -/
theorem fileBytes_le {kept : List MeshSchedule} (part : kept.Sublist schedules) (some_ : kept ≠ [])
    : fileBytes kept ≤ fileBytes schedules := by
  have all : schedules ≠ [] := fun none_ => some_ (List.sublist_nil.mp (none_ ▸ part))
  have items : serializedBytes (.array (kept.map (·.json)))
      ≤ serializedBytes (.array (schedules.map (·.json))) := by
    rw [Json.serializedBytes_array (by simpa using some_),
      Json.serializedBytes_array (by simpa using all)]
    exact Nat.add_le_add_left (((part.map _).map _).sum_le_sum fun _ _ => Nat.zero_le _) 1
  rw [fileBytes, fileBytes, Json.serializedBytes_object (by simp),
    Json.serializedBytes_object (by simp)]
  simp only [List.map_cons, List.map_nil, List.sum_cons, List.sum_nil, Json.memberCost]
  omega

/-- So what is left of a file that was read can be written. -/
theorem writeSchedules_sublist {kept : List MeshSchedule} (part : kept.Sublist schedules)
    (fits : schedules ≠ [] → fileBytes schedules ≤ maxScheduleFileBytes)
    : ∃ next, writeSchedules kept = .ok next := by
  unfold writeSchedules
  split
  · exact ⟨_, rfl⟩
  · next some_ =>
      have all : schedules ≠ [] := fun none_ => some_ (List.sublist_nil.mp (none_ ▸ part))
      have shorter := fileBytes_le part some_
      rw [if_neg (by have bound := fits all; omega)]
      exact ⟨_, rfl⟩

theorem storeSchedule_ok {aborted : Bool} {schedule : MeshSchedule}
    (h : storeSchedule aborted schedule file = .ok next)
    : next.getD [] = ((file.getD []).filter fun entry =>
        decide (schedule.key = none ∨ entry.key ≠ schedule.key)) ++ [schedule] := by
  obtain ⟨-, h⟩ := check_then_eq_ok.mp h
  obtain ⟨schedules, read, h⟩ := bind_eq_ok.mp h
  obtain ⟨-, h⟩ := check_then_eq_ok.mp h
  rw [writeSchedules_ok h, (readSchedules_ok read).1]

theorem unschedule_ok {key : JsString} {removed : Bool}
    (h : unschedule key file = .ok (next, removed))
    : next.getD [] = (file.getD []).filter fun entry => decide (entry.key ≠ some key) := by
  obtain ⟨-, h⟩ := check_then_eq_ok.mp h
  obtain ⟨schedules, read, h⟩ := bind_eq_ok.mp h
  obtain rfl := (readSchedules_ok read).1
  dsimp only at h
  split at h
  · next same =>
      obtain ⟨rfl, -⟩ := Prod.mk.inj (Except.ok.inj h)
      exact (List.filter_sublist.eq_of_length same).symm
  · obtain ⟨written, wrote, h⟩ := bind_eq_ok.mp h
    obtain ⟨rfl, -⟩ := Prod.mk.inj (Except.ok.inj h)
    exact writeSchedules_ok wrote

theorem makeSchedule_ok {maxEventBytes : Nat} {now : Int} {id : JsString} {sender : Json}
    {input : ScheduleInput} {schedule : MeshSchedule}
    (h : makeSchedule maxEventBytes now id sender input = .ok schedule)
    : schedule.id = id := by
  obtain ⟨-, h⟩ := check_then_eq_ok.mp h
  obtain ⟨-, h⟩ := check_then_eq_ok.mp h
  obtain ⟨-, h⟩ := check_then_eq_ok.mp h
  obtain ⟨-, h⟩ := check_then_eq_ok.mp h
  obtain ⟨-, h⟩ := check_then_eq_ok.mp h
  obtain ⟨-, h⟩ := check_then_eq_ok.mp h
  exact (Except.ok.inj h) ▸ rfl

/-- A release appends the first ones of what it is given, and all of it unless it throws. -/
theorem appendDue_spec (fate : JsString → Fate) (entries : List MeshSchedule)
    : (appendDue fate entries).all <+: entries
      ∧ ((appendDue fate entries).outcome = .ok () → (appendDue fate entries).all = entries) := by
  -- by induction over the entries, up to the first append that throws
  induction entries with
  | nil => exact ⟨List.nil_prefix, fun _ => rfl⟩
  | cons entry rest ih =>
      rw [appendDue]
      split
      · exact ⟨List.cons_prefix_cons.mpr ⟨rfl, ih.1⟩, fun done =>
          congrArg (entry :: ·) (ih.2 done)⟩
      · next took message _ =>
          refine ⟨?_, fun done => by cases done⟩
          cases took with
          | false => exact List.nil_prefix
          | true => exact ⟨rest, rfl⟩

theorem mem_due {now : Int} {entry : MeshSchedule}
    : entry ∈ due localeCompare now schedules ↔ entry ∈ schedules ∧ entry.dueAt ≤ now := by
  rw [due, List.mem_mergeSort, List.mem_filter, decide_eq_true_eq]

theorem releaseDueLocked_spec (now : Int) (fate : JsString → Fate) (file : File)
    : (releaseDueLocked localeCompare now fate file).1.getD []
        = (file.getD []).filter (fun entry => decide (entry.id ∉
          (releaseDueLocked localeCompare now fate file).2.released.map (·.id)))
      ∧ (releaseDueLocked localeCompare now fate file).2.all
        <+: due localeCompare now (file.getD [])
      ∧ ((releaseDueLocked localeCompare now fate file).2.outcome = .ok () →
        (releaseDueLocked localeCompare now fate file).2.all
          = due localeCompare now (file.getD [])) := by
  unfold releaseDueLocked
  cases read : readSchedules file with
  | error failure => exact ⟨by simp, List.nil_prefix, fun done => by cases done⟩
  | ok schedules =>
      obtain ⟨rfl, fits⟩ := readSchedules_ok read
      have spec := appendDue_spec fate (due localeCompare now (file.getD []))
      dsimp only
      split
      · next none_ => exact ⟨by simp [none_], spec⟩
      · have part : ((file.getD []).filter fun entry => decide (entry.id ∉ (appendDue fate
            (due localeCompare now (file.getD []))).released.map (·.id))).Sublist (file.getD []) :=
          List.filter_sublist
        obtain ⟨next, wrote⟩ := writeSchedules_sublist part fits
        rw [wrote]
        exact ⟨writeSchedules_ok wrote, spec⟩

/-- Each accepted schedule is pending, or was withdrawn, or was appended once more than its appends threw.
-/
structure Accounted (root : Root) : Prop where
  distinct : (root.accepted.map (·.id)).Nodup
  ids : (root.pending.map (·.id)).Nodup
  keys : (root.pending.filterMap (·.key)).Nodup
  known : ∀ entry ∈ root.pending, entry ∈ root.accepted
  threw : ∀ id ∈ root.threw, id ∈ root.accepted.map (·.id)
  waiting : ∀ entry ∈ root.pending, root.times entry.id = root.threw.count entry.id
  released : ∀ entry ∈ root.accepted, entry ∉ root.pending → entry.id ∉ root.withdrawn →
    root.times entry.id = root.threw.count entry.id + 1

variable {root : Root}

theorem Accounted.pending_of_id (accounted : Accounted root) {entry : MeshSchedule}
    (accepted : entry ∈ root.accepted) (named : entry.id ∈ root.pending.map (·.id))
    : entry ∈ root.pending := by
  obtain ⟨other, pending, same⟩ := List.mem_map.mp named
  exact List.inj_on_of_nodup_map accounted.distinct (accounted.known other pending) accepted same
    ▸ pending

/-- A write that only takes schedules from the file withdraws them. -/
theorem Accounted.rewrite (accounted : Accounted root)
    (part : (file.getD []).Sublist root.pending)
    : Accounted (root.rewrite file) := by
  refine ⟨accounted.distinct, accounted.ids.sublist (part.map _),
    accounted.keys.sublist (part.filterMap _), fun entry kept => accounted.known entry (part.mem kept),
    accounted.threw, fun entry kept => accounted.waiting entry (part.mem kept), ?_⟩
  intro entry accepted gone kept
  simp only [Root.rewrite, List.mem_append, List.mem_filter, not_or, not_and,
    decide_eq_true_eq] at kept
  refine accounted.released entry accepted (fun pending => ?_) kept.1
  have named := not_not.mp (kept.2 (List.mem_map_of_mem pending))
  obtain ⟨other, here, same⟩ := List.mem_map.mp named
  have equal := List.inj_on_of_nodup_map accounted.ids (part.mem here) pending same
  exact gone (equal ▸ here)

theorem Accounted.schedule (accounted : Accounted root) {schedule : MeshSchedule}
    (stored : file.getD [] = (root.pending.filter fun entry =>
      decide (schedule.key = none ∨ entry.key ≠ schedule.key)) ++ [schedule])
    (fresh : schedule.id ∉ root.accepted.map (·.id) ++ root.log.map (·.id))
    : Accounted { root.rewrite file with accepted := root.accepted ++ [schedule] } := by
  rw [List.mem_append, not_or] at fresh
  have part : (root.pending.filter fun entry =>
      decide (schedule.key = none ∨ entry.key ≠ schedule.key)).Sublist root.pending :=
    List.filter_sublist
  have old : schedule.id ∉ root.pending.map (·.id) := fun named =>
    have ⟨entry, pending, same⟩ := List.mem_map.mp named
    fresh.1 (same ▸ List.mem_map_of_mem (accounted.known entry pending))
  have none_logged : root.times schedule.id = 0 := List.count_eq_zero.mpr fresh.2
  have none_threw : root.threw.count schedule.id = 0 :=
    List.count_eq_zero.mpr fun named => fresh.1 (accounted.threw _ named)
  refine ⟨?_, ?_, ?_, fun entry pending => ?_, fun id named => ?_, fun entry pending => ?_,
    fun entry accepted gone kept => ?_⟩
  · dsimp only
    rw [List.map_append, List.map_singleton]
    exact List.nodup_append'.mpr ⟨accounted.distinct, List.nodup_singleton _,
      List.disjoint_singleton.mpr fresh.1⟩
  · simp only [Root.pending, Root.rewrite, stored, List.map_append, List.map_singleton]
    exact List.nodup_append'.mpr ⟨accounted.ids.sublist (part.map _), List.nodup_singleton _,
      List.disjoint_singleton.mpr fun named => old ((part.map _).mem named)⟩
  · simp only [Root.pending, Root.rewrite, stored, List.filterMap_append]
    refine List.nodup_append'.mpr ⟨accounted.keys.sublist (part.filterMap _), ?_, ?_⟩
    · cases key : schedule.key <;> simp [key]
    · cases key : schedule.key with
      | none => simp [key]
      | some name =>
          rw [List.filterMap_cons, key]
          refine List.disjoint_singleton.mpr fun named => ?_
          obtain ⟨entry, kept, same⟩ := List.mem_filterMap.mp named
          have other := of_decide_eq_true (List.mem_filter.mp kept).2
          simp [same] at other
  · simp only [Root.pending, Root.rewrite, stored, List.mem_append, List.mem_singleton] at pending ⊢
    exact pending.imp_left fun kept => accounted.known entry (part.mem kept)
  · rw [List.map_append]
    exact List.mem_append_left _ (accounted.threw id named)
  · simp only [Root.pending, Root.rewrite, stored, List.mem_append, List.mem_singleton] at pending
    rcases pending with kept | rfl
    · exact accounted.waiting entry (part.mem kept)
    · exact none_logged.trans none_threw.symm
  · simp only [Root.pending, Root.rewrite, stored, List.mem_append, List.mem_singleton,
      not_or] at gone accepted kept
    have before := accepted.resolve_right gone.2
    refine accounted.released entry before (fun pending => kept.2 ?_) kept.1
    refine List.mem_filter.mpr ⟨List.mem_map_of_mem pending, decide_eq_true fun named => ?_⟩
    rw [List.map_append, List.map_singleton, List.mem_append, List.mem_singleton] at named
    rcases named with named | same
    · obtain ⟨other, here, same⟩ := List.mem_map.mp named
      exact gone.1 (List.inj_on_of_nodup_map accounted.ids (part.mem here) pending same ▸ here)
    · exact fresh.1 (same ▸ List.mem_map_of_mem before)

theorem Accounted.release (accounted : Accounted root) (now : Int) (fate : JsString → Fate)
    : Accounted { root with
        file := (releaseDueLocked localeCompare now fate root.file).1
        log := root.log
          ++ (releaseDueLocked localeCompare now fate root.file).2.all.map (·.event)
        threw := root.threw
          ++ (releaseDueLocked localeCompare now fate root.file).2.threw.map (·.id) } := by
  obtain ⟨left, front, -⟩ := @releaseDueLocked_spec localeCompare now fate root.file
  generalize releaseDueLocked localeCompare now fate root.file = done at left front ⊢
  obtain ⟨file, appended⟩ := done
  dsimp only at left front ⊢
  have part : (file.getD []).Sublist root.pending := left ▸ List.filter_sublist
  have inside : ∀ entry ∈ appended.all, entry ∈ root.pending := fun entry member =>
    (mem_due.mp (front.subset member)).1
  have ids : (appended.all.map (·.id)).Nodup := by
    have sorted : ((due localeCompare now (root.file.getD [])).map (·.id)).Nodup :=
      ((List.mergeSort_perm _ _).map _).nodup_iff.mpr
        (accounted.ids.sublist (List.filter_sublist.map _))
    exact sorted.sublist (front.sublist.map _)
  have times (id : JsString) : Root.times { root with
        file, log := root.log ++ appended.all.map (·.event)
        threw := root.threw ++ appended.threw.map (·.id) } id
      = root.times id + (appended.all.map (·.id)).count id := by
    rw [Root.times, List.map_append, List.count_append, List.map_map]
    rfl
  have parts (id : JsString) : (appended.all.map (·.id)).count id
      = (appended.released.map (·.id)).count id + (appended.threw.map (·.id)).count id := by
    rw [Appended.all, List.map_append, List.count_append]
  refine ⟨accounted.distinct, accounted.ids.sublist (part.map _),
    accounted.keys.sublist (part.filterMap _), fun entry kept => accounted.known entry (part.mem kept),
    fun id named => ?_, fun entry kept => ?_, fun entry accepted gone outside => ?_⟩
  · rcases List.mem_append.mp named with old | new
    · exact accounted.threw id old
    · obtain ⟨entry, member, rfl⟩ := List.mem_map.mp new
      exact List.mem_map_of_mem
        (accounted.known entry (inside entry (List.mem_append_right _ member)))
  · have unreleased : entry.id ∉ appended.released.map (·.id) := by
      have kept' : entry ∈ file.getD [] := kept
      rw [left] at kept'
      exact of_decide_eq_true (List.mem_filter.mp kept').2
    rw [times, parts, List.count_append, List.count_eq_zero.mpr unreleased,
      accounted.waiting entry (part.mem kept), Nat.zero_add]
  · rw [times, List.count_append]
    by_cases pending : entry ∈ root.pending
    · have released : entry.id ∈ appended.released.map (·.id) := by
        by_contra other
        refine gone ?_
        show entry ∈ file.getD []
        rw [left]
        exact List.mem_filter.mpr ⟨pending, decide_eq_true other⟩
      have once : (appended.all.map (·.id)).count entry.id = 1 := List.count_eq_one_of_mem ids (by
        rw [Appended.all, List.map_append]
        exact List.mem_append_left _ released)
      have some_ := List.count_pos_iff.mpr released
      rw [accounted.waiting entry pending, once]
      have sum := parts entry.id
      omega
    · have absent (items : List MeshSchedule) (all : ∀ item ∈ items, item ∈ root.pending)
          : (items.map (·.id)).count entry.id = 0 := by
        refine List.count_eq_zero.mpr fun named => ?_
        obtain ⟨item, member, same⟩ := List.mem_map.mp named
        exact pending (accounted.pending_of_id accepted (same ▸ List.mem_map_of_mem (all item member)))
      rw [accounted.released entry accepted pending outside, absent _ inside,
        absent _ fun item member => inside item (List.mem_append_right _ member)]

theorem Accounted.act (accounted : Accounted root) {action : Action} {after : Root}
    (done : root.act localeCompare action = some after)
    : Accounted after := by
  cases action with
  | schedule maxEventBytes now id sender input aborted =>
      simp only [Root.act] at done
      split at done
      · exact Option.some.inj done ▸ accounted
      · next schedule made =>
          split at done
          · exact Option.some.inj done ▸ accounted
          · next file stored =>
              split at done
              · cases done
              · next fresh =>
                  obtain rfl := makeSchedule_ok made
                  exact Option.some.inj done ▸ accounted.schedule (storeSchedule_ok stored) fresh
  | unschedule key =>
      simp only [Root.act] at done
      split at done
      · exact Option.some.inj done ▸ accounted
      · next file removed written =>
          have left := unschedule_ok written
          exact Option.some.inj done ▸ accounted.rewrite (left ▸ List.filter_sublist)
  | release now fate => exact Option.some.inj done ▸ accounted.release now fate
  | append events =>
      simp only [Root.act] at done
      split at done
      · cases done
      · next others =>
          have none_ : ∀ entry ∈ root.accepted, (events.map (·.id)).count entry.id = 0 := by
            intro entry accepted
            refine List.count_eq_zero.mpr fun named => others ?_
            obtain ⟨event, member, same⟩ := List.mem_map.mp named
            exact List.any_eq_true.mpr ⟨event, member, decide_eq_true
              (same ▸ List.mem_map_of_mem accepted)⟩
          have times : ∀ entry ∈ root.accepted,
              Root.times { root with log := root.log ++ events } entry.id = root.times entry.id := by
            intro entry accepted
            rw [Root.times, List.map_append, List.count_append, none_ entry accepted, Root.times,
              Nat.add_zero]
          refine Option.some.inj done ▸ { accounted with
            waiting := fun entry pending => ?_, released := fun entry accepted gone outside => ?_ }
          · exact (times entry (accounted.known entry pending)).trans
              (accounted.waiting entry pending)
          · exact (times entry accepted).trans (accounted.released entry accepted gone outside)

theorem Reached.accounted (reached : Reached localeCompare root) : Accounted root := by
  -- by induction over the steps
  induction reached with
  | start =>
      exact ⟨List.nodup_nil, List.nodup_nil, List.nodup_nil, nofun, nofun, nofun, nofun⟩
  | act before done ih => exact ih.act done

/-- What holds of any release from a state: it appends due schedules in their order, and all of them
unless it throws.
-/
def InOrder (localeCompare : JsString → JsString → Ordering) (root : Root)
    (appended : Appended) (now : Int)
    : Prop :=
  (appended.all.Pairwise fun left right =>
      comparePlaces localeCompare left.place right.place = .lt)
  ∧ (∀ entry ∈ appended.all, entry ∈ root.pending ∧ entry.dueAt ≤ now)
  ∧ (appended.outcome = .ok () →
      ∀ entry ∈ root.pending, entry.dueAt ≤ now → entry ∈ appended.all)

theorem Accounted.inOrder (accounted : Accounted root)
    (order : TotalOn localeCompare fun id => id ∈ root.accepted.map (·.id)) (now : Int)
    (fate : JsString → Fate)
    : InOrder localeCompare root (releaseDueLocked localeCompare now fate root.file).2 now := by
  obtain ⟨-, front, whole⟩ := @releaseDueLocked_spec localeCompare now fate root.file
  have places := TotalOn.lex totalOn_int (TotalOn.lex totalOn_int order)
  have sorted : Strict (comparePlaces localeCompare) MeshSchedule.place
      (due localeCompare now root.pending) := by
    refine strict_mergeSort places (fun entry member => ?_) ?_
    · exact List.mem_map_of_mem (accounted.known entry (List.mem_filter.mp member).1)
    · have named : (root.pending.filter fun entry => decide (entry.dueAt ≤ now)).map (·.id)
          = ((root.pending.filter fun entry => decide (entry.dueAt ≤ now)).map
            MeshSchedule.place).map (·.2.2) := by
        rw [List.map_map]
        rfl
      exact List.Nodup.of_map _ (named ▸ accounted.ids.sublist (List.filter_sublist.map _))
  refine ⟨sorted.sublist front.sublist, fun entry member => mem_due.mp (front.subset member),
    fun done entry pending late => ?_⟩
  rw [whole done]
  exact mem_due.mpr ⟨pending, late⟩

end PiFabric.Schedules
