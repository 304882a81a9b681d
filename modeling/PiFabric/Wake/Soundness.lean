import PiFabric.Wake.Index

/-! What the journal and the overflow files hold, and what each operation keeps of it: the journal
is the lines of valid records, a compaction keeps the watermarks, and no root has two.
-/

namespace PiFabric.Wake

open JsString LineLog

variable {directory : JsString} {disk disk' : Disk} {pending pending' : Pending} {cache : Cache}

theorem size_apply_le (record : Record) (pending : Pending)
    (room : record.op = .pending → pending.has record.root = true ∨ pending.size < indexMaxRoots)
    (few : pending.size ≤ indexMaxRoots)
    : (record.apply pending).size ≤ indexMaxRoots := by
  unfold Record.apply
  cases op : record.op with
  | pending =>
      simp only [JsMap.size_set]
      rcases room op with held | below
      · rw [if_pos held]
        exact few
      · split <;> omega
  | ack =>
      simp only
      split
      · split
        · exact (JsMap.size_delete_le ..).trans few
        · exact few
      · exact few

variable {record : Record}

theorem replayRecord_eq (few : (record.apply pending).size ≤ indexMaxRoots)
    : replayRecord pending record = .ok (record.apply pending) :=
  if_neg (by omega)

theorem foldlM_checkpoint {entries : List (JsString × WakeDelivery)}
    (distinct : (entries.map Prod.fst).Nodup) (fresh : ∀ entry ∈ entries, entry.1 ∉ pending.keys)
    (few : pending.size + entries.length ≤ indexMaxRoots)
    : ∃ result, (entries.map fun entry => watermark entry.1 entry.2).foldlM replayRecord pending
        = .ok result
      ∧ result.entries = pending.entries ++ entries := by
  induction entries generalizing pending with
  | nil => exact ⟨pending, rfl, by simp⟩
  | cons entry rest ih =>
      simp only [List.map_cons, List.nodup_cons] at distinct
      simp only [List.length_cons] at few
      have absent := fresh entry List.mem_cons_self
      have added : (pending.set entry.1 entry.2).entries = pending.entries ++ [entry] :=
        JsMap.setEntries_absent absent
      have size : (pending.set entry.1 entry.2).size = pending.size + 1 := by
        simp [JsMap.size, added]
      have others : ∀ other ∈ rest, other.1 ∉ (pending.set entry.1 entry.2).keys := by
        intro other member inside
        rw [JsMap.keys_set, if_neg absent, List.mem_append, List.mem_singleton] at inside
        rcases inside with old | same
        · exact fresh other (List.mem_cons_of_mem _ member) old
        · exact distinct.1 (List.mem_map.mpr ⟨other, member, same⟩)
      obtain ⟨result, folded, same⟩ := ih distinct.2 others (by omega)
      refine ⟨result, ?_, by rw [same, added]; simp⟩
      rw [List.map_cons, List.foldlM_cons, replayRecord_eq (by
        change (pending.set entry.1 entry.2).size ≤ _
        omega)]
      exact folded

theorem replay_checkpointRecords (few : pending.size ≤ indexMaxRoots)
    : (checkpointRecords pending).foldlM replayRecord JsMap.empty = .ok pending := by
  obtain ⟨result, folded, same⟩ := @foldlM_checkpoint JsMap.empty pending.entries
    pending.distinct (by simp [JsMap.keys, JsMap.empty]) (by simpa [JsMap.size, JsMap.empty] using few)
  have isPending : result = pending := JsMap.ext (by simpa [JsMap.empty] using same)
  rw [← isPending]
  simpa [checkpointRecords, isPending] using folded

/-- A record that the journal may hold, as the watermark of its root. -/
def Watermarked (directory root : JsString) (delivery : WakeDelivery) : Prop :=
  Valid directory (watermark root delivery)

structure Journal (directory : JsString) (disk : Disk) (pending : Pending) : Prop where
  lines : ∃ records : List Record, disk.journal.getD [] = join (records.map Record.bytes)
    ∧ (∀ record ∈ records, Valid directory record)
    ∧ records.foldlM replayRecord JsMap.empty = .ok pending
  bounded : (disk.journal.getD []).length ≤ indexMaxBytes
  few : pending.size ≤ indexMaxRoots
  valid : ∀ root delivery, pending.get? root = some delivery → Watermarked directory root delivery

theorem bytes_ne_nil (record : Record) : record.bytes ≠ [] := by
  intro none_
  have read : Json.ofBytes record.bytes = some record.json := Json.ofBytes_bytes record.json
  rw [none_] at read
  exact absurd read (by
    have empty : (Json.ofBytes []).isNone = true := by decide
    intro some_
    simp [some_] at empty)

theorem linesOf_join (records : List Record)
    : linesOf (join (records.map Record.bytes)) = records.map Record.bytes := by
  have clean : ∀ line ∈ records.map Record.bytes, newline ∉ line := by
    intro line member
    obtain ⟨record, -, rfl⟩ := List.mem_map.mp member
    exact Json.newline_not_mem_bytes record.json
  have cut := split_join clean []
  rw [List.append_nil] at cut
  unfold linesOf
  rw [cut]
  simp only [split, List.append_nil, List.filter_append, List.filter_cons, List.isEmpty_nil,
    Bool.not_true, Bool.false_eq_true, if_false, List.filter_nil]
  refine List.filter_eq_self.mpr fun line member => ?_
  obtain ⟨record, -, rfl⟩ := List.mem_map.mp member
  simpa using bytes_ne_nil record

theorem readLine_bytes (held : IsDirectory directory) (valid : Valid directory record)
    : readLine directory record.bytes = .ok record := by
  unfold readLine Record.bytes
  rw [Json.ofBytes_bytes]
  simp only [readRecord_json held valid]

theorem foldlM_replayLine (held : IsDirectory directory) {records : List Record}
    (valid : ∀ record ∈ records, Valid directory record) (start : Pending)
    : (records.map Record.bytes).foldlM (replayLine directory) start
      = records.foldlM replayRecord start := by
  induction records generalizing start with
  | nil => rfl
  | cons record rest ih =>
      have others := fun other member => valid other (List.mem_cons_of_mem _ member)
      rw [List.map_cons, List.foldlM_cons, List.foldlM_cons]
      have first : replayLine directory start record.bytes = replayRecord start record := by
        unfold replayLine
        rw [readLine_bytes held (valid record List.mem_cons_self)]
        rfl
      rw [first]
      cases replayRecord start record with
      | error failure => rfl
      | ok next => exact ih others next

theorem Journal.replay (held : IsDirectory directory) (h : Journal directory disk pending)
    {content : Bytes} (found : disk.journal = some content)
    : replay directory content = .ok pending := by
  obtain ⟨records, same, valid, folded⟩ := h.lines
  have bounded := h.bounded
  simp only [found, Option.getD_some] at same bounded
  unfold Wake.replay
  rw [if_neg (by omega), same, linesOf_join, foldlM_replayLine held valid]
  exact folded

theorem Journal.empty_of_none (h : Journal directory disk pending) (none_ : disk.journal = none)
    : pending = JsMap.empty := by
  obtain ⟨records, same, -, folded⟩ := h.lines
  cases records with
  | nil => exact (Except.ok.inj folded).symm
  | cons record rest =>
      rw [none_] at same
      simp at same

/-- A cache that was replayed at the journal's stamp holds its watermarks. -/
structure Coherent (disk : Disk) (pending : Pending) (cache : Cache) : Prop where
  upto : ∀ stamp, cache.stamp = some stamp → stamp ≤ disk.stamp
  current : cache.stamp = some disk.stamp → disk.journal.isSome = true ∧ cache.pending = pending

/-- A cache that was refreshed. -/
structure Fresh (disk : Disk) (pending : Pending) (cache : Cache) : Prop where
  coherent : Coherent disk pending cache
  pending : cache.pending = pending
  stamped : cache.stamp.isSome = disk.journal.isSome

/-- How the journal changes: not at all, or under a new stamp. -/
def Advances (disk : Disk) (pending : Pending) (disk' : Disk) (pending' : Pending) : Prop :=
  disk'.journal = disk.journal ∧ disk'.stamp = disk.stamp ∧ pending' = pending
    ∨ disk.stamp < disk'.stamp

theorem Advances.refl (disk : Disk) (pending : Pending) : Advances disk pending disk pending :=
  .inl ⟨rfl, rfl, rfl⟩

theorem Advances.trans {disk'' : Disk} {pending'' : Pending}
    (hf : Advances disk pending disk' pending') (hs : Advances disk' pending' disk'' pending'')
    : Advances disk pending disk'' pending'' := by
  rcases hf with ⟨journal, stamp, rfl⟩ | first
  · rcases hs with ⟨journal', stamp', rfl⟩ | second
    · exact .inl ⟨journal'.trans journal, stamp'.trans stamp, rfl⟩
    · exact .inr (stamp ▸ second)
  · rcases hs with ⟨-, stamp', -⟩ | second
    · exact .inr (stamp' ▸ first)
    · exact .inr (first.trans second)

theorem Coherent.advances (h : Coherent disk pending cache)
    (advances : Advances disk pending disk' pending')
    : Coherent disk' pending' cache := by
  rcases advances with ⟨journal, stamp, rfl⟩ | later
  · exact ⟨fun value same => stamp ▸ h.upto value same, fun same => journal ▸ h.current (stamp ▸ same)⟩
  · refine ⟨fun value same => (h.upto value same).trans later.le, fun same => ?_⟩
    exact absurd (h.upto _ same) (by omega)

theorem coherent_emptyCache : Coherent disk pending emptyCache :=
  ⟨by simp [emptyCache], by simp [emptyCache]⟩

/-- A refresh never throws on a valid journal. -/
theorem refresh_ok (held : IsDirectory directory) (h : Journal directory disk pending)
    (coherent : Coherent disk pending cache)
    : ∃ fresh, refresh directory disk cache = .ok fresh ∧ Fresh disk pending fresh := by
  unfold refresh
  cases found : disk.journal with
  | none =>
      refine ⟨emptyCache, rfl, coherent_emptyCache, (h.empty_of_none found).symm, ?_⟩
      simp [emptyCache, found]
  | some content =>
      simp only
      split
      · next same =>
          refine ⟨cache, rfl, coherent, (coherent.current same).2, ?_⟩
          simp [same, found]
      · refine ⟨⟨pending, some disk.stamp⟩, ?_, ⟨?_, ?_⟩, rfl, by simp [found]⟩
        · rw [h.replay held found]
          rfl
        · rintro stamp ⟨rfl⟩
          exact le_refl _
        · exact fun _ => ⟨by simp [found], rfl⟩

/-- No process stops inside the line: its bytes are all written, or none is. -/
def Fate.Whole (fate : Fate) (record : Record) : Prop :=
  ∀ count, fate = .partly count → count = 0 ∨ (lineOf record).length ≤ count

theorem Journal.append (h : Journal directory disk pending) (valid : Valid directory record)
    (bounded : (disk.journal.getD []).length + (lineOf record).length ≤ indexMaxBytes)
    (few : (record.apply pending).size ≤ indexMaxRoots)
    : Journal directory (disk.append (lineOf record)) (record.apply pending) where
  lines := by
    obtain ⟨records, same, all, folded⟩ := h.lines
    refine ⟨records ++ [record], ?_, ?_, ?_⟩
    · simp [Disk.append, Disk.write, same, lineOf, join]
    · intro other member
      rcases List.mem_append.mp member with before | last
      · exact all other before
      · exact List.mem_singleton.mp last ▸ valid
    · rw [List.foldlM_append, folded]
      have last : replayRecord pending record = .ok (record.apply pending) := replayRecord_eq few
      change (replayRecord pending record >>= fun next => [].foldlM replayRecord next) = _
      rw [last]
      rfl
  bounded := by
    simpa [Disk.append, Disk.write] using bounded
  few := few
  valid := by
    intro root delivery found
    unfold Record.apply at found
    cases op : record.op with
    | pending =>
        simp only [op, JsMap.get?_set] at found
        split at found
        · next same =>
            obtain rfl := Option.some.inj found
            obtain ⟨isRoot, safe⟩ := valid
            exact ⟨same ▸ isRoot, safe⟩
        · exact h.valid root delivery found
    | ack =>
        simp only [op] at found
        split at found
        · split at found
          · rw [JsMap.get?_delete] at found
            split at found
            · cases found
            · exact h.valid root delivery found
          · exact h.valid root delivery found
        · exact h.valid root delivery found

/-- A compaction keeps every watermark. -/
theorem Journal.checkpoint (h : Journal directory disk pending)
    (bounded : (checkpoint pending).length ≤ indexMaxBytes)
    : Journal directory (disk.write (checkpoint pending)) pending where
  lines := by
    refine ⟨checkpointRecords pending, rfl, ?_, replay_checkpointRecords h.few⟩
    intro record member
    obtain ⟨entry, listed, rfl⟩ := List.mem_map.mp member
    exact h.valid entry.1 entry.2 (JsMap.get?_eq_some_iff.mpr listed)
  bounded := bounded
  few := h.few
  valid := h.valid

/-- What an append leaves: the record is applied, or, if the append did not return, perhaps not. -/
structure Appended (directory : JsString) (disk : Disk) (pending : Pending) (record : Record)
    (result : Disk × Cache × Except Failure Unit) (pending' : Pending) : Prop where
  journal : Journal directory result.1 pending'
  advances : Advances disk pending result.1 pending'
  overflow : result.1.overflow = disk.overflow
  coherent : Coherent result.1 pending' result.2.1
  applied : pending' = record.apply pending ∨ pending' = pending ∧ result.2.2 ≠ .ok ()
  fresh : result.2.2 = .ok () → Fresh result.1 pending' result.2.1

theorem line_sound (held : IsDirectory directory) {base : Disk} {fresh : Cache}
    (hb : Journal directory base pending) (advances : Advances disk pending base pending)
    (same : base.overflow = disk.overflow) (coherent : Coherent disk pending fresh)
    (valid : Valid directory record)
    (bounded : (base.journal.getD []).length + (lineOf record).length ≤ indexMaxBytes)
    (few : (record.apply pending).size ≤ indexMaxRoots)
    {outcome : Disk × Cache × Except Failure Unit}
    (left : outcome = (base.append (lineOf record), fresh, .error .stopped)
      ∨ outcome = match refresh directory (base.append (lineOf record)) { fresh with stamp := none }
        with
        | .error failure =>
            (base.append (lineOf record), { fresh with stamp := none }, .error failure)
        | .ok read => (base.append (lineOf record), read, .ok ()))
    : ∃ pending', Appended directory disk pending record outcome pending' := by
  have journal := hb.append valid bounded few
  have later : Advances disk pending (base.append (lineOf record)) (record.apply pending) := by
    refine advances.trans (.inr ?_)
    change base.stamp < base.stamp + 1
    omega
  refine ⟨record.apply pending, ?_⟩
  rcases left with rfl | rfl
  · exact ⟨journal, later, same, coherent.advances later, .inl rfl, by simp⟩
  · have unstamped : Coherent (base.append (lineOf record)) (record.apply pending)
        { fresh with stamp := none } := ⟨by simp, by simp⟩
    obtain ⟨read, refreshed, isFresh⟩ := refresh_ok held journal unstamped
    simp only [refreshed]
    exact ⟨journal, later, same, isFresh.coherent, .inl rfl, fun _ => isFresh⟩

/-- A write of nothing leaves the watermarks. -/
theorem Journal.nothing (h : Journal directory disk pending)
    : Journal directory (disk.append []) pending where
  lines := by
    obtain ⟨records, same, all, folded⟩ := h.lines
    exact ⟨records, by simp [Disk.append, Disk.write, same], all, folded⟩
  bounded := by
    simpa [Disk.append, Disk.write] using h.bounded
  few := h.few
  valid := h.valid

/-- The writes of an append over a base with the same watermarks, as its fate ends them. -/
theorem written_sound (held : IsDirectory directory) {base : Disk} {fresh : Cache}
    (hb : Journal directory base pending) (advances : Advances disk pending base pending)
    (same : base.overflow = disk.overflow) (coherent : Coherent disk pending fresh)
    (valid : Valid directory record)
    (bounded : (base.journal.getD []).length + (lineOf record).length ≤ indexMaxBytes)
    (few : (record.apply pending).size ≤ indexMaxRoots) {fate : Fate} (whole : fate.Whole record)
    (unchanged : ∀ failure, Appended directory disk pending record
      (disk, fresh, .error failure) pending)
    : ∃ pending', Appended directory disk pending record
        (match fate with
        | .beforeWrite => (disk, fresh, .error .stopped)
        | .afterCheckpoint => (base, fresh, .error .stopped)
        | .partly count => (base.append ((lineOf record).take count), fresh, .error .stopped)
        | .done =>
            match refresh directory (base.append (lineOf record)) { fresh with stamp := none } with
            | .error failure =>
                (base.append (lineOf record), { fresh with stamp := none }, .error failure)
            | .ok read => (base.append (lineOf record), read, .ok ())) pending' := by
  cases fate with
  | beforeWrite => exact ⟨_, unchanged _⟩
  | afterCheckpoint =>
      exact ⟨_, hb, advances, same, coherent.advances advances, .inr ⟨rfl, by simp⟩, by simp⟩
  | partly count =>
      rcases whole count rfl with rfl | all
      · have later : Advances disk pending (base.append []) pending := by
          refine advances.trans (.inr ?_)
          change base.stamp < base.stamp + 1
          omega
        exact ⟨_, hb.nothing, later, same, coherent.advances later, .inr ⟨rfl, by simp⟩, by simp⟩
      · simp only [List.take_of_length_le all]
        exact line_sound held hb advances same coherent valid bounded few (.inl rfl)
  | done => exact line_sound held hb advances same coherent valid bounded few (.inr rfl)

/-- Every whole append keeps a journal, and applies its record once it returns. -/
theorem append_sound (held : IsDirectory directory) (h : Journal directory disk pending)
    (coherent : Coherent disk pending cache) (valid : Valid directory record) {fate : Fate}
    (whole : fate.Whole record)
    : ∃ pending', Appended directory disk pending record
        (append directory disk cache record fate) pending' := by
  obtain ⟨fresh, refreshed, isFresh⟩ := refresh_ok held h coherent
  obtain ⟨freshCoherent, rfl, stamped⟩ := isFresh
  have unchanged (failure : Failure) : Appended directory disk fresh.pending record
      (disk, fresh, .error failure) fresh.pending :=
    ⟨h, .refl .., rfl, freshCoherent, .inr ⟨rfl, by simp⟩, by simp⟩
  have size : (if fresh.stamp.isSome then (disk.journal.getD []).length else 0)
      = (disk.journal.getD []).length := by
    cases found : disk.journal with
    | none => simp
    | some content => simp [stamped, found]
  unfold append
  simp only [refreshed, size]
  split_ifs with full large beyond compacts
  · exact ⟨_, unchanged _⟩
  · exact ⟨_, unchanged _⟩
  · exact ⟨_, unchanged _⟩
  -- The rewrite is due, and then the line is appended to the checkpoint, or to what there is.
  all_goals
    have few : (record.apply fresh.pending).size ≤ indexMaxRoots := by
      refine size_apply_le record fresh.pending (fun op => ?_) h.few
      by_cases has : fresh.pending.has record.root = true
      · exact .inl has
      · refine .inr ?_
        by_contra bound
        exact full ⟨op, by simpa using has, by omega⟩
  · have small : (checkpoint fresh.pending).length + (lineOf record).length ≤ indexMaxBytes := by
      by_contra excess
      exact beyond ⟨compacts, by omega⟩
    have base := h.checkpoint (by omega)
    have advances : Advances disk fresh.pending (disk.write (checkpoint fresh.pending))
        fresh.pending := by
      refine .inr ?_
      change disk.stamp < disk.stamp + 1
      omega
    exact written_sound held base advances rfl freshCoherent valid small few whole unchanged
  · have small : (disk.journal.getD []).length + (lineOf record).length ≤ indexMaxBytes := by
      omega
    exact written_sound held h (.refl ..) rfl freshCoherent valid small few whole unchanged

end PiFabric.Wake
