import PiFabric.Decisions.Resolution

/-! What a raise prunes. A resolved decision is to be kept for a week and the store to stay bounded,
but an expiry without a default leaves no time of its own, and a record that the raise itself
expires is not deleted.
-/

namespace PiFabric.Decisions

open Outcome

/-- A stored decision with its version and, beside the record, the time when it left `open`. -/
structure Shelved where
  id : JsString
  record : Record
  version : Nat
  resolved : Option Time
  deriving DecidableEq

def Shelved.write (entry : Shelved) (next : Record) (now : Time) : Shelved where
  id := entry.id
  record := next
  version := entry.version + 1
  resolved := if next.status = .opened then entry.resolved else some now

/-- The sets of stored decisions that writes of any callers lead to: each replaces the record that
it was computed from, and reads the clock after that record was made. A listing may have any order.
-/
inductive Stocked : List Shelved → Prop
  | empty : Stocked []
  | create {shelf : List Shelved} {input : RaiseInput} {id : JsString} {raisedBy : RaisedBy}
      {now : Time} {birth : Record} (before : Stocked shelf)
      (built : buildDecisionRecord input id raisedBy now = .ok birth)
      (fresh : ∀ entry ∈ shelf, entry.id ≠ id)
    : Stocked (shelf ++ [⟨id, birth, 1, none⟩])
  | expire {front back : List Shelved} {entry : Shelved} {now : Time}
      (before : Stocked (front ++ entry :: back)) (later : entry.record.createdAt ≤ now)
      (passed : applyDecisionDeadline entry.record now ≠ entry.record)
    : Stocked (front ++ entry.write (applyDecisionDeadline entry.record now) now :: back)
  | change {front back : List Shelved} {entry : Shelved} {change : Change} {now : Time}
      {next : Record} (before : Stocked (front ++ entry :: back))
      (open_ : entry.record.status = .opened) (later : entry.record.createdAt ≤ now)
      (computed : change.next entry.record now = .ok next)
    : Stocked (front ++ entry.write next now :: back)
  | delete {front back : List Shelved} {entry : Shelved}
      (before : Stocked (front ++ entry :: back)) (resolved : entry.record.status ≠ .opened)
    : Stocked (front ++ back)
  | order {shelf shelf' : List Shelved} (before : Stocked shelf) (same : shelf.Perm shelf')
    : Stocked shelf'

/-- `#expire` of one entry, without concurrent writers. -/
def scanEntry (reading : JsString → Time) (entry : Shelved) : Shelved :=
  let next := applyDecisionDeadline entry.record (reading entry.id)
  if next = entry.record then entry else entry.write next (reading entry.id)

def entriesOf (reading : JsString → Time) (shelf : List Shelved) : List (Read × Record) :=
  shelf.map fun entry =>
    (⟨entry.id, entry.record, entry.version⟩, (scanEntry reading entry).record)

def Shelved.matches (entry : Shelved) (read : Read) : Bool :=
  read.id = entry.id && read.version = entry.version

/-- `#prune`: a deletion fails where the version has changed. -/
def deleteAll (doomed : List Read) (shelf : List Shelved) : List Shelved :=
  shelf.filter fun entry => !doomed.any entry.matches

/-- What `#prune` would have to delete for the store to keep its bound. -/
def excess (shelf : List Shelved) : Int :=
  shelf.length + 1 - maxStoredDecisions

/-- `raise` without concurrent writers: `reading` is the clock at the scan of each decision. -/
def raise (input : RaiseInput) (id : JsString) (raisedBy : RaisedBy) (born : Time)
    (reading : JsString → Time) (now : Time) (shelf : List Shelved) : Option (List Shelved) :=
  match buildDecisionRecord input id raisedBy born with
  | .error _ => none
  | .ok birth =>
      let scanned := shelf.map (scanEntry reading)
      if maxOpenDecisions ≤ scanned.countP fun entry => entry.record.status = .opened then none
      else
        let doomed := pruned now (excess shelf) (resolvedEntries (entriesOf reading shelf))
        let kept := deleteAll doomed scanned
        if kept.any fun entry => entry.id = id then none else some (kept ++ [⟨id, birth, 1, none⟩])

/-- What a raise is to leave of the decisions that it scanned. -/
structure Retains (now : Time) (scanned after : List Shelved) : Prop where
  resolved : ∀ entry ∈ scanned, entry ∉ after → entry.record.status ≠ .opened
  week : ∀ entry ∈ scanned, entry ∉ after → ∀ time, entry.resolved = some time →
    now - time < resolvedRetentionMs →
    maxStoredDecisions < after.length + 1
      ∧ ∀ kept ∈ after, ∀ time', kept.resolved = some time' → time ≤ time'
  bounded : after.length ≤ maxStoredDecisions

/-- The resolved decisions that the loop of `#prune` reaches: the ones of old and those in excess.
-/
def Reaches (now : Time) (excess : Int) (index : Nat) (record : Record) : Prop :=
  resolvedRetentionMs < now - record.resolvedAt ∨ (index : Int) < excess

/-- No decision that the pruning reaches was expired by this very scan, where the store is full, or
was resolved within a week without an answer.
-/
structure Clear (reading : JsString → Time) (now : Time) (shelf : List Shelved) : Prop where
  settled : 0 < excess shelf → ∀ index read record,
    (resolvedEntries (entriesOf reading shelf))[index]? = some (read, record) →
    Reaches now (excess shelf) index record → record = read.record
  answered : ∀ index read record,
    (resolvedEntries (entriesOf reading shelf))[index]? = some (read, record) →
    Reaches now (excess shelf) index record → record = read.record → record.answer = none →
    ∀ entry ∈ shelf, entry.id = read.id → ∀ time, entry.resolved = some time →
      resolvedRetentionMs ≤ now - time

/-- The time beside a record: an open one has none, an answered one that of its answer. -/
structure Timed (entry : Shelved) : Prop where
  opened : entry.record.status = .opened → entry.resolved = none ∧ entry.record.answer = none
  resolved : entry.record.status ≠ .opened → ∃ time, entry.resolved = some time
    ∧ ∀ answer, entry.record.answer = some answer → answer.answeredAt = time
  created : ∀ time, entry.resolved = some time → entry.record.createdAt ≤ time

variable {input : RaiseInput} {id : JsString} {raisedBy : RaisedBy}

theorem buildDecisionRecord_unanswered {now : Time} {record : Record}
    (h : buildDecisionRecord input id raisedBy now = .ok record)
    : record.status = .opened ∧ record.answer = none := by
  obtain ⟨title, -, h⟩ := bind_eq_ok.mp h
  obtain ⟨body, -, h⟩ := bind_eq_ok.mp h
  obtain ⟨given, -, h⟩ := bind_eq_ok.mp h
  obtain ⟨options, -, h⟩ := bind_eq_ok.mp h
  obtain ⟨deadline, -, h⟩ := bind_eq_ok.mp h
  obtain ⟨holder, -, h⟩ := bind_eq_ok.mp h
  obtain ⟨escalation, -, h⟩ := bind_eq_ok.mp h
  obtain ⟨default, -, h⟩ := bind_eq_ok.mp h
  obtain ⟨-, -, h⟩ := bind_eq_ok.mp h
  obtain ⟨-, -, h⟩ := bind_eq_ok.mp h
  obtain rfl := Except.ok.inj h
  exact ⟨rfl, rfl⟩

theorem Timed.birth {now : Time} {birth : Record}
    (built : buildDecisionRecord input id raisedBy now = .ok birth)
    : Timed ⟨id, birth, 1, none⟩ := by
  obtain ⟨open_, unanswered⟩ := buildDecisionRecord_unanswered built
  exact ⟨fun _ => ⟨rfl, unanswered⟩, fun other => absurd open_ other, fun _ none_ => by cases none_⟩

variable {entry : Shelved}

variable {next : Record}

theorem Timed.write {now : Time} (timed : Timed entry) (open_ : entry.record.status = .opened)
    (created : next.createdAt = entry.record.createdAt) (later : entry.record.createdAt ≤ now)
    (stays : next.status = .opened → next.answer = entry.record.answer)
    (stamped : next.status ≠ .opened → ∀ answer, next.answer = some answer →
      answer.answeredAt = now)
    : Timed (entry.write next now) := by
  obtain ⟨untimed, unanswered⟩ := timed.opened open_
  refine ⟨fun opened => ?_, fun resolved => ?_, fun time same => ?_⟩
  · exact ⟨(if_pos opened).trans untimed, (stays opened).trans unanswered⟩
  · exact ⟨now, if_neg resolved, stamped resolved⟩
  · rw [Shelved.write] at same ⊢
    dsimp only at same ⊢
    split at same
    · rw [untimed] at same
      cases same
    · rw [created, ← Option.some.inj same]
      exact later

/-- A deadline that passes changes an open record only, and stamps the answer it gives. -/
theorem applyDecisionDeadline_stamps {record : Record} {now : Time}
    (passed : applyDecisionDeadline record now ≠ record)
    : record.status = .opened ∧ (applyDecisionDeadline record now).createdAt = record.createdAt
      ∧ ((applyDecisionDeadline record now).status = .opened →
        (applyDecisionDeadline record now).answer = record.answer)
      ∧ ∀ answer, (applyDecisionDeadline record now).answer = some answer →
        record.answer = some answer ∨ answer.answeredAt = now := by
  have stamp : ∀ (current : Record) (byDefault : Bool), current.answer = record.answer →
      ∀ answer, (expired current byDefault now).answer = some answer →
        record.answer = some answer ∨ answer.answeredAt = now := by
    intro current byDefault same answer given
    simp only [expired] at given
    split at given
    · obtain rfl := Option.some.inj given
      exact Or.inr rfl
    · exact Or.inl (same ▸ given)
  unfold applyDecisionDeadline at passed ⊢
  split at passed
  swap
  · exact absurd rfl passed
  next deadline opened due =>
  refine ⟨opened, ?_⟩
  split at passed
  · exact absurd rfl passed
  next reached =>
  simp only [if_neg reached]
  split
  · exact ⟨rfl, fun still => (by cases still), stamp record _ rfl⟩
  · split
    · exact ⟨rfl, fun _ => rfl, fun answer given => Or.inl given⟩
    · exact ⟨rfl, fun still => (by cases still), stamp _ _ rfl⟩

theorem Timed.expire {now : Time} (timed : Timed entry) (later : entry.record.createdAt ≤ now)
    (passed : applyDecisionDeadline entry.record now ≠ entry.record)
    : Timed (entry.write (applyDecisionDeadline entry.record now) now) := by
  obtain ⟨open_, created, stays, stamped⟩ := applyDecisionDeadline_stamps passed
  refine timed.write open_ created later stays fun _ answer given => ?_
  rcases stamped answer given with old | new
  · rw [(timed.opened open_).2] at old
    cases old
  · exact new

theorem Timed.change {change : Change} {now : Time} (timed : Timed entry)
    (open_ : entry.record.status = .opened) (later : entry.record.createdAt ≤ now)
    (computed : change.next entry.record now = .ok next) : Timed (entry.write next now) := by
  obtain ⟨-, -, computed⟩ := bind_eq_ok.mp computed
  cases change with
  | answer input answeredBy via authorize =>
      obtain ⟨given, -, made⟩ := bind_eq_ok.mp computed
      obtain rfl := Except.ok.inj made
      refine timed.write open_ rfl later (fun still => by cases still) fun _ answer given => ?_
      obtain rfl := Option.some.inj given
      rfl
  | cancel answeredBy via authorize =>
      obtain rfl := Except.ok.inj computed
      refine timed.write open_ rfl later (fun still => by cases still) fun _ answer given => ?_
      obtain rfl := Option.some.inj given
      rfl
  | escalate reason escalatedBy authorize =>
      simp only [escalated] at computed
      split at computed
      · cases computed
      · split at computed
        · cases computed
        · obtain rfl := Except.ok.inj computed
          exact timed.write open_ rfl later (fun _ => rfl) fun other => absurd open_ other

/-- Stored decisions have distinct ids, and the times beside them are right. -/
structure Shelf (shelf : List Shelved) : Prop where
  distinct : (shelf.map Shelved.id).Nodup
  timed : ∀ entry ∈ shelf, Timed entry

theorem Shelf.write {front back : List Shelved} {now : Time}
    (shelf : Shelf (front ++ entry :: back)) (timed : Timed (entry.write next now))
    : Shelf (front ++ entry.write next now :: back) := by
  refine ⟨?_, fun other member => ?_⟩
  · have same : (front ++ entry.write next now :: back).map Shelved.id
        = (front ++ entry :: back).map Shelved.id := by
      simp only [List.map_append, List.map_cons, Shelved.write]
    rw [same]
    exact shelf.distinct
  · rcases List.mem_append.mp member with before | after
    · exact shelf.timed other (List.mem_append_left _ before)
    · rcases List.mem_cons.mp after with rfl | behind
      · exact timed
      · exact shelf.timed other (List.mem_append_right _ (List.mem_cons_of_mem _ behind))

/-- Every set of stored decisions is a shelf, by induction over the writes. -/
theorem Stocked.shelf {shelf : List Shelved} (stocked : Stocked shelf) : Shelf shelf := by
  induction stocked with
  | empty => exact ⟨List.nodup_nil, fun _ none_ => by cases none_⟩
  | @create shelf input id raisedBy now birth before built fresh ih =>
      refine ⟨?_, fun entry member => ?_⟩
      · rw [List.map_append, List.map_singleton, List.nodup_append]
        refine ⟨ih.distinct, List.nodup_singleton _, fun other known other' new => ?_⟩
        obtain ⟨entry, member, rfl⟩ := List.mem_map.mp known
        rw [List.mem_singleton.mp new]
        exact fresh entry member
      · rcases List.mem_append.mp member with old | new
        · exact ih.timed entry old
        · rw [List.mem_singleton.mp new]
          exact .birth built
  | @expire front back entry now _ later passed ih =>
      have member : entry ∈ front ++ entry :: back :=
        List.mem_append_right _ List.mem_cons_self
      exact ih.write ((ih.timed entry member).expire later passed)
  | @change front back entry change now next _ open_ later computed ih =>
      have member : entry ∈ front ++ entry :: back :=
        List.mem_append_right _ List.mem_cons_self
      exact ih.write ((ih.timed entry member).change open_ later computed)
  | @delete front back entry _ _ ih =>
      have less : List.Sublist (front ++ back) (front ++ entry :: back) :=
        (List.sublist_cons_self entry back).append_left front
      exact ⟨ih.distinct.sublist (less.map _), fun other member => ih.timed other (less.subset member)⟩
  | order _ same ih =>
      exact ⟨(same.map Shelved.id).nodup_iff.mp ih.distinct,
        fun entry member => ih.timed entry (same.mem_iff.mpr member)⟩

variable {reading : JsString → Time} {now : Time} {shelf : List Shelved}

def Shelved.listed (entry : Shelved) : Read :=
  ⟨entry.id, entry.record, entry.version⟩

theorem scanEntry_id (entry : Shelved) : (scanEntry reading entry).id = entry.id := by
  unfold scanEntry
  dsimp only
  split <;> rfl

theorem scanEntry_eq_self (same : (scanEntry reading entry).record = entry.record
      ∨ (scanEntry reading entry).version = entry.version)
    : scanEntry reading entry = entry := by
  unfold scanEntry at same ⊢
  dsimp only at same ⊢
  split
  · rfl
  · next passed =>
      rw [if_neg passed] at same
      rcases same with record | version
      · exact absurd record passed
      · rw [Shelved.write] at version
        dsimp only at version
        omega

theorem Timed.scan (timed : Timed entry) (later : entry.record.createdAt ≤ reading entry.id)
    : Timed (scanEntry reading entry) := by
  unfold scanEntry
  dsimp only
  split
  · exact timed
  · exact timed.expire later ‹_›

/-- The resolved decisions are those of the scan, in the order of the times that their records have.
-/
theorem mem_resolved_entriesOf {pair : Read × Record}
    : pair ∈ resolvedEntries (entriesOf reading shelf)
      ↔ ∃ entry ∈ shelf, pair = (entry.listed, (scanEntry reading entry).record)
        ∧ (scanEntry reading entry).record.status ≠ .opened := by
  rw [resolvedEntries, List.mem_insertionSort, List.mem_filter, entriesOf, List.mem_map]
  constructor
  · rintro ⟨⟨entry, member, rfl⟩, resolved⟩
    exact ⟨entry, member, rfl, of_decide_eq_true resolved⟩
  · rintro ⟨entry, member, rfl, resolved⟩
    exact ⟨⟨entry, member, rfl⟩, decide_eq_true resolved⟩

theorem length_resolved_entriesOf
    : (resolvedEntries (entriesOf reading shelf)).length
      + (shelf.map (scanEntry reading)).countP (fun entry => entry.record.status = .opened)
      = shelf.length := by
  rw [resolvedEntries, List.length_insertionSort, entriesOf, ← List.countP_eq_length_filter,
    List.countP_map, List.countP_map, Nat.add_comm]
  have total := List.length_eq_countP_add_countP
    (fun entry : Shelved => decide ((scanEntry reading entry).record.status = .opened))
    (l := shelf)
  rw [total]
  congr 1
  refine List.countP_congr fun entry _ => ?_
  simp

theorem resolvedEntries_sorted (entries : List (Read × Record))
    : (resolvedEntries entries).Pairwise fun left right =>
        left.2.resolvedAt ≤ right.2.resolvedAt := by
  have total : Std.Total fun left right : Read × Record =>
      left.2.resolvedAt ≤ right.2.resolvedAt := ⟨fun _ _ => le_total _ _⟩
  have trans_ : IsTrans (Read × Record) fun left right =>
      left.2.resolvedAt ≤ right.2.resolvedAt := ⟨fun _ _ _ => le_trans⟩
  exact List.pairwise_insertionSort _ _

theorem resolvedEntries_distinct (distinct : (shelf.map Shelved.id).Nodup)
    : ((resolvedEntries (entriesOf reading shelf)).map fun pair => pair.1.id).Nodup := by
  have ids : (entriesOf reading shelf).map (fun pair => pair.1.id) = shelf.map Shelved.id := by
    rw [entriesOf, List.map_map]
    rfl
  have sorted := (List.perm_insertionSort (fun left right : Read × Record =>
    left.2.resolvedAt ≤ right.2.resolvedAt)
    ((entriesOf reading shelf).filter fun entry => entry.2.status ≠ .opened)).map
      fun pair => pair.1.id
  refine sorted.nodup_iff.mpr ?_
  exact (ids ▸ distinct).sublist (List.filter_sublist.map _)

/-- The loop takes the first resolved decisions, those that it reaches, by induction over them. -/
theorem pruned_spec (now : Time) (excess : Int) (entries : List (Read × Record))
    : ∃ front back, entries = front ++ back ∧ pruned now excess entries = front.map Prod.fst
      ∧ (∀ index pair, front[index]? = some pair → Reaches now excess index pair.2)
      ∧ ∀ first rest, back = first :: rest → ¬Reaches now excess front.length first.2 := by
  induction entries generalizing excess with
  | nil => exact ⟨[], [], rfl, rfl, by simp, by simp⟩
  | cons pair entries ih =>
      obtain ⟨read, record⟩ := pair
      rw [pruned]
      split
      · next reached =>
          obtain ⟨front, back, rfl, same, reaches, stops⟩ := ih (excess - 1)
          have shift : ∀ index record, Reaches now (excess - 1) index record
              ↔ Reaches now excess (index + 1) record := by
            intro index record
            unfold Reaches
            push_cast
            exact or_congr Iff.rfl ⟨fun less => by omega, fun less => by omega⟩
          refine ⟨(read, record) :: front, back, rfl, by rw [same]; rfl, ?_, ?_⟩
          · intro index pair at_
            cases index with
            | zero =>
                obtain rfl := Option.some.inj at_
                exact reached
            | succ index => exact (shift index pair.2).mp (reaches index pair at_)
          · intro first rest ends reached'
            exact stops first rest ends ((shift _ _).mpr reached')
      · next stopped =>
          refine ⟨[], (read, record) :: entries, rfl, rfl, by simp, ?_⟩
          rintro first rest ends reached
          obtain ⟨rfl, _⟩ := List.cons.inj ends
          exact stopped reached

/-- What the deletions of a raise do to the scanned decisions. -/
structure Deletes (reading : JsString → Time) (now : Time) (shelf : List Shelved)
    (doomed : List Read) (front back : List (Read × Record)) : Prop where
  parts : resolvedEntries (entriesOf reading shelf) = front ++ back
  doomed : doomed = front.map Prod.fst
  reaches : ∀ index pair, front[index]? = some pair → Reaches now (excess shelf) index pair.2
  stops : ∀ first rest, back = first :: rest → ¬Reaches now (excess shelf) front.length first.2

variable {doomed : List Read} {front back : List (Read × Record)}

/-- A deletion removes an entry that the scan has left alone. -/
theorem Deletes.any_matches (deletes : Deletes reading now shelf doomed front back)
    (distinct : (shelf.map Shelved.id).Nodup) (member : entry ∈ shelf)
    : doomed.any (scanEntry reading entry).matches = true
      ↔ (entry.listed, (scanEntry reading entry).record) ∈ front
        ∧ scanEntry reading entry = entry := by
  rw [List.any_eq_true, deletes.doomed]
  constructor
  · rintro ⟨read, known, found⟩
    obtain ⟨pair, inside, rfl⟩ := List.mem_map.mp known
    have listed : pair ∈ resolvedEntries (entriesOf reading shelf) :=
      deletes.parts ▸ List.mem_append_left _ inside
    obtain ⟨other, there, rfl, _⟩ := mem_resolved_entriesOf.mp listed
    rw [Shelved.matches, Bool.and_eq_true, decide_eq_true_eq, decide_eq_true_eq] at found
    obtain rfl : other = entry :=
      List.inj_on_of_nodup_map distinct there member (found.1.trans (scanEntry_id entry))
    exact ⟨inside, scanEntry_eq_self (Or.inr found.2.symm)⟩
  · rintro ⟨inside, same⟩
    refine ⟨entry.listed, List.mem_map.mpr ⟨_, inside, rfl⟩, ?_⟩
    rw [same, Shelved.matches]
    simp [Shelved.listed]

/-- Where the scan left every decision alone that is reached, all of them are deleted. -/
theorem Deletes.length_deleteAll (deletes : Deletes reading now shelf doomed front back)
    (distinct : (shelf.map Shelved.id).Nodup) (settled : ∀ pair ∈ front, pair.2 = pair.1.record)
    : (deleteAll doomed (shelf.map (scanEntry reading))).length + front.length = shelf.length := by
  have ids : (shelf.map (scanEntry reading)).map Shelved.id = shelf.map Shelved.id := by
    rw [List.map_map]
    exact List.map_congr_left fun entry _ => scanEntry_id entry
  have fronts : (front.map fun pair => pair.1.id).Nodup := by
    have whole := @resolvedEntries_distinct reading shelf distinct
    rw [deletes.parts, List.map_append] at whole
    exact (List.nodup_append.mp whole).1
  have removed : (((shelf.map (scanEntry reading)).filter fun entry =>
      doomed.any entry.matches).map Shelved.id).Perm (front.map fun pair => pair.1.id) := by
    refine (List.perm_ext_iff_of_nodup ?_ fronts).mpr fun id => ?_
    · exact (ids ▸ distinct).sublist (List.filter_sublist.map _)
    · rw [List.mem_map, List.mem_map]
      constructor
      · rintro ⟨entry, member, rfl⟩
        obtain ⟨scanned, found⟩ := List.mem_filter.mp member
        obtain ⟨origin, there, rfl⟩ := List.mem_map.mp scanned
        have inside := ((deletes.any_matches distinct there).mp found).1
        exact ⟨_, inside, (scanEntry_id origin).symm⟩
      · rintro ⟨pair, inside, rfl⟩
        have listed : pair ∈ resolvedEntries (entriesOf reading shelf) :=
          deletes.parts ▸ List.mem_append_left _ inside
        obtain ⟨origin, there, rfl, _⟩ := mem_resolved_entriesOf.mp listed
        have same := scanEntry_eq_self (Or.inl (settled _ inside))
        refine ⟨scanEntry reading origin, List.mem_filter.mpr ⟨List.mem_map_of_mem there, ?_⟩,
          scanEntry_id origin⟩
        exact (deletes.any_matches distinct there).mpr ⟨inside, same⟩
  have count := removed.length_eq
  rw [List.length_map, List.length_map] at count
  have total := List.length_eq_countP_add_countP (fun entry : Shelved => doomed.any entry.matches)
    (l := shelf.map (scanEntry reading))
  rw [List.countP_eq_length_filter, List.countP_eq_length_filter, count, List.length_map] at total
  have kept : (deleteAll doomed (shelf.map (scanEntry reading)))
      = (shelf.map (scanEntry reading)).filter fun entry =>
          decide ¬doomed.any entry.matches = true := by
    rw [deleteAll]
    congr 1
    funext entry
    cases doomed.any entry.matches <;> rfl
  rw [kept, total, Nat.add_comm]

theorem mem_deleteAll {scanned : List Shelved} (member : entry ∈ scanned)
    (gone : entry ∉ deleteAll doomed scanned) : doomed.any entry.matches = true := by
  by_contra kept
  exact gone (List.mem_filter.mpr ⟨member, by simpa using kept⟩)

/-- What a raise leaves: the scanned decisions that are not deleted, and the new one. -/
theorem raise_spec {born : Time} {after : List Shelved}
    (raised : raise input id raisedBy born reading now shelf = some after)
    : ∃ doomed front back birth, Deletes reading now shelf doomed front back
      ∧ (shelf.map (scanEntry reading)).countP (fun entry => entry.record.status = .opened)
        < maxOpenDecisions
      ∧ after = deleteAll doomed (shelf.map (scanEntry reading)) ++ [⟨id, birth, 1, none⟩] := by
  obtain ⟨front, back, parts, same, reaches, stops⟩ :=
    pruned_spec now (excess shelf) (resolvedEntries (entriesOf reading shelf))
  unfold raise at raised
  split at raised
  · cases raised
  · next birth _ =>
      dsimp only at raised
      split at raised
      · cases raised
      · next few =>
          split at raised
          · cases raised
          · exact ⟨_, front, back, birth, ⟨parts, same, reaches, stops⟩, not_le.mp few,
              (Option.some.inj raised).symm⟩

/-- A decision that is gone after a raise was at some place of those it reached, and stored as it
was listed.
-/
theorem Deletes.gone (deletes : Deletes reading now shelf doomed front back) (kept : Shelf shelf)
    {birth : Shelved} (scanned : entry ∈ shelf.map (scanEntry reading))
    (gone : entry ∉ deleteAll doomed (shelf.map (scanEntry reading)) ++ [birth])
    : entry ∈ shelf ∧ ∃ index : Nat, front[index]? = some (entry.listed, entry.record)
      ∧ (resolvedEntries (entriesOf reading shelf))[index]? = some (entry.listed, entry.record) := by
  obtain ⟨origin, member, rfl⟩ := List.mem_map.mp scanned
  have away : scanEntry reading origin ∉ deleteAll doomed (shelf.map (scanEntry reading)) :=
    fun stays => gone (List.mem_append_left _ stays)
  obtain ⟨inside, same⟩ := (deletes.any_matches kept.distinct member).mp (mem_deleteAll scanned away)
  obtain ⟨index, at_⟩ := List.getElem?_of_mem inside
  rw [same] at at_ ⊢
  refine ⟨member, index, at_, ?_⟩
  rw [deletes.parts, List.getElem?_append_left (List.getElem?_eq_some_iff.mp at_).1]
  exact at_

/-- The time of a resolved decision is that of its answer, and never before what pruning reads. -/
theorem Timed.resolvedAt_le (timed : Timed entry) {time : Time}
    (resolved : entry.resolved = some time) : entry.record.resolvedAt ≤ time := by
  have left : entry.record.status ≠ .opened := by
    intro opened
    rw [(timed.opened opened).1] at resolved
    cases resolved
  obtain ⟨time', same, answered⟩ := timed.resolved left
  obtain rfl := Option.some.inj (same.symm.trans resolved)
  unfold Record.resolvedAt
  cases given : entry.record.answer with
  | none => exact timed.created _ resolved
  | some answer => exact (answered answer given).le

/-- Where the store is full, the loop does not end before it has made room. -/
theorem Deletes.excess_le (deletes : Deletes reading now shelf doomed front back)
    (few : (shelf.map (scanEntry reading)).countP (fun entry => entry.record.status = .opened)
      < maxOpenDecisions)
    : excess shelf ≤ front.length := by
  have total := @length_resolved_entriesOf reading shelf
  rw [deletes.parts, List.length_append] at total
  cases back with
  | nil =>
      rw [List.length_nil] at total
      unfold excess maxStoredDecisions
      unfold maxOpenDecisions at few
      omega
  | cons first rest =>
      have stops := deletes.stops first rest rfl
      unfold Reaches at stops
      omega

/-- Where a young decision is reached, no more are deleted than have to be. -/
theorem Deletes.length_le (deletes : Deletes reading now shelf doomed front back)
    {index : Nat} {pair : Read × Record} (at_ : front[index]? = some pair)
    (young : now - pair.2.resolvedAt < resolvedRetentionMs)
    : (front.length : Int) ≤ excess shelf := by
  have sorted := resolvedEntries_sorted (entriesOf reading shelf)
  rw [deletes.parts, List.pairwise_append] at sorted
  by_contra longer
  obtain ⟨less, here⟩ := List.getElem?_eq_some_iff.mp at_
  have last : front.length - 1 < front.length := by omega
  have reaches := deletes.reaches (front.length - 1) front[front.length - 1]
    (List.getElem?_eq_getElem last)
  have within : pair.2.resolvedAt ≤ front[front.length - 1].2.resolvedAt := by
    rcases Nat.lt_or_ge index (front.length - 1) with before | at_end
    · rw [← here]
      exact List.pairwise_iff_getElem.mp sorted.1 index _ less last before
    · have same : index = front.length - 1 := by omega
      subst same
      rw [here]
  rcases reaches with old | less
  · exact absurd (lt_of_lt_of_le old (sub_le_sub_left within now)) (not_lt.mpr young.le)
  · omega

/-- **A raise deletes resolved decisions only, keeps them for a week where the store has room,
deletes the oldest where it has none, and leaves the store within its bound**, in every set of
decisions that writes lead to; where no decision that it reaches was expired by its own scan or
resolved within the week without an answer.
-/
theorem raise_retains_resolved_decisions {input : RaiseInput} {id : JsString}
    {raisedBy : RaisedBy} {born : Time} {after : List Shelved} (stocked : Stocked shelf)
    (later : ∀ entry ∈ shelf, entry.record.createdAt ≤ reading entry.id)
    (clear : Clear reading now shelf)
    (raised : raise input id raisedBy born reading now shelf = some after)
    : Retains now (shelf.map (scanEntry reading)) after := by
  have kept := stocked.shelf
  obtain ⟨doomed, front, back, birth, deletes, few, rfl⟩ := raise_spec raised
  have enough := deletes.excess_le few
  have settled : 0 < excess shelf → ∀ pair ∈ front, pair.2 = pair.1.record := by
    intro full pair inside
    obtain ⟨index, at_⟩ := List.getElem?_of_mem inside
    refine clear.settled full index pair.1 pair.2 ?_ (deletes.reaches index pair at_)
    rw [deletes.parts, List.getElem?_append_left (List.getElem?_eq_some_iff.mp at_).1]
    exact at_
  refine ⟨fun entry scanned gone => ?_, fun entry scanned gone time resolved young => ?_, ?_⟩
  · obtain ⟨_, index, _, listed⟩ := deletes.gone kept scanned gone
    obtain ⟨_, _, same, left⟩ := mem_resolved_entriesOf.mp (List.mem_of_getElem? listed)
    rw [(Prod.mk.inj same).2]
    exact left
  · obtain ⟨member, index, at_, listed⟩ := deletes.gone kept scanned gone
    have reached := deletes.reaches index _ at_
    -- A young one has an answer, whose time pruning reads.
    have dated : entry.record.resolvedAt = time := by
      unfold Record.resolvedAt
      cases given : entry.record.answer with
      | none =>
          have old := clear.answered index _ _ listed reached rfl given entry member rfl time resolved
          exact absurd young (not_lt.mpr old)
      | some answer =>
          obtain ⟨_, _, same, left⟩ := mem_resolved_entriesOf.mp (List.mem_of_getElem? listed)
          rw [← (Prod.mk.inj same).2] at left
          obtain ⟨time', stored, stamped⟩ := (kept.timed entry member).resolved left
          rw [resolved] at stored
          exact (stamped answer given).trans (Option.some.inj stored).symm
    have full : 0 < excess shelf := by
      rcases reached with old | less
      · rw [dated] at old
        exact absurd young (not_lt.mpr old.le)
      · omega
    have exact_ := deletes.length_le at_ (by rw [dated]; exact young)
    have count := deletes.length_deleteAll kept.distinct (settled full)
    constructor
    · rw [List.length_append, List.length_singleton]
      unfold excess at exact_
      omega
    · intro other stays time' resolved'
      rcases List.mem_append.mp stays with stored | new
      swap
      · rw [List.mem_singleton.mp new] at resolved'
        cases resolved'
      obtain ⟨inList, unmatched⟩ := List.mem_filter.mp stored
      obtain ⟨origin, there, rfl⟩ := List.mem_map.mp inList
      have timed := (kept.timed origin there).scan (later origin there)
      have left : (scanEntry reading origin).record.status ≠ .opened := by
        intro opened
        rw [(timed.opened opened).1] at resolved'
        cases resolved'
      have known := mem_resolved_entriesOf.mpr ⟨origin, there, rfl, left⟩
      rw [deletes.parts] at known
      rcases List.mem_append.mp known with inside | behind
      · have same := scanEntry_eq_self (Or.inl (settled full _ inside))
        rw [(deletes.any_matches kept.distinct there).mpr ⟨inside, same⟩] at unmatched
        cases unmatched
      · have sorted := resolvedEntries_sorted (entriesOf reading shelf)
        rw [deletes.parts, List.pairwise_append] at sorted
        have order := sorted.2.2 _ (List.mem_of_getElem? at_) _ behind
        rw [dated] at order
        exact order.trans (timed.resolvedAt_le resolved')
  · rw [List.length_append, List.length_singleton]
    rcases le_or_gt (excess shelf) 0 with room | full
    · have less : (deleteAll doomed (shelf.map (scanEntry reading))).length ≤ shelf.length :=
        (List.length_filter_le _ _).trans (List.length_map _).le
      unfold excess at room
      omega
    · have count := deletes.length_deleteAll kept.distinct (settled full)
      unfold excess maxStoredDecisions at enough
      unfold maxStoredDecisions
      omega

def cancelling (timeoutMs : Time) : RaiseInput :=
  { exampleInput with onExpire := some .cancel, timeoutMs := some timeoutMs }

def eightDays : Record :=
  { exampleBirth with
    deadline := some (8 * 24 * 60 * 60 * 1000)
    onExpire := .cancel
    escalation := none
  }

def eightDaysShelved : Shelved :=
  Shelved.write ⟨eightDays.id, eightDays, 1, none⟩
    (applyDecisionDeadline eightDays (8 * 24 * 60 * 60 * 1000)) (8 * 24 * 60 * 60 * 1000)

theorem eightDaysShelved_stocked : Stocked [eightDaysShelved] := by
  have built : buildDecisionRecord (cancelling (8 * 24 * 60 * 60 * 1000)) eightDays.id
      exampleRaisedBy 0 = .ok eightDays := by decide +kernel
  have created := Stocked.create .empty built (by simp)
  exact @Stocked.expire [] [] ⟨eightDays.id, eightDays, 1, none⟩ (8 * 24 * 60 * 60 * 1000) created
    (by decide +kernel) (by decide +kernel)

def laterBirth : Record :=
  { exampleBirth with
    id := JsString.lit "dec_2"
    createdAt := 8 * 24 * 60 * 60 * 1000 + 1
    deadline := some (8 * 24 * 60 * 60 * 1000 + 1 + defaultEscalationHopMs)
  }

/-- It takes the place of the one that has just expired, in a store that has room. -/
theorem expired_decision_is_deleted_at_once
    : ∃ (input : RaiseInput) (id : JsString) (raisedBy : RaisedBy) (born : Time)
        (reading : JsString → Time) (now : Time) (shelf after : List Shelved),
      Stocked shelf ∧ (∀ entry ∈ shelf, entry.record.createdAt ≤ reading entry.id)
        ∧ raise input id raisedBy born reading now shelf = some after
        ∧ ¬Retains now (shelf.map (scanEntry reading)) after := by
  refine ⟨exampleInput, laterBirth.id, exampleRaisedBy, laterBirth.createdAt,
    fun _ => laterBirth.createdAt, laterBirth.createdAt, [eightDaysShelved],
    [⟨laterBirth.id, laterBirth, 1, none⟩], eightDaysShelved_stocked, by decide +kernel, ?_,
    fun retains => ?_⟩
  · have built : buildDecisionRecord exampleInput laterBirth.id exampleRaisedBy
        laterBirth.createdAt = .ok laterBirth := by decide +kernel
    unfold raise
    rw [built]
    decide +kernel
  · have lost := (retains.week eightDaysShelved (by decide +kernel) (by decide +kernel)
      (8 * 24 * 60 * 60 * 1000) (by decide +kernel) (by decide +kernel)).1
    revert lost
    decide +kernel

theorem raise_retains_resolved_decisions_eight_days
    : ∃ after, raise exampleInput (JsString.lit "dec_2") exampleRaisedBy 1000
        (fun _ => 1000) 1000 [⟨eightDays.id, eightDays, 1, none⟩] = some after
      ∧ Retains 1000 [⟨eightDays.id, eightDays, 1, none⟩] after := by
  have built : buildDecisionRecord (cancelling (8 * 24 * 60 * 60 * 1000)) eightDays.id
      exampleRaisedBy 0 = .ok eightDays := by decide +kernel
  have created := Stocked.create .empty built (by simp)
  have same : [(⟨eightDays.id, eightDays, 1, none⟩ : Shelved)].map (scanEntry fun _ => 1000)
      = [⟨eightDays.id, eightDays, 1, none⟩] := by decide +kernel
  have none_ : resolvedEntries (entriesOf (fun _ => 1000) [⟨eightDays.id, eightDays, 1, none⟩])
      = [] := by decide +kernel
  have clear : Clear (fun _ => 1000) 1000 [⟨eightDays.id, eightDays, 1, none⟩] := by
    refine ⟨fun _ index read record listed => ?_, fun index read record listed => ?_⟩
    all_goals
      rw [none_] at listed
      cases listed
  have success : ∃ after, raise exampleInput (JsString.lit "dec_2") exampleRaisedBy 1000
      (fun _ => 1000) 1000 [⟨eightDays.id, eightDays, 1, none⟩] = some after :=
    Option.isSome_iff_exists.mp (by decide +kernel)
  obtain ⟨after, raised⟩ := success
  have retains := raise_retains_resolved_decisions created (by decide +kernel) clear raised
  rw [List.nil_append, same] at retains
  exact ⟨after, raised, retains⟩

end PiFabric.Decisions
