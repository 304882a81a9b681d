import PiFabric.Wake.Soundness

/-! The watermark of each root, in the journal or in its overflow file and never in both, and what
an index call and an acknowledgement make of it.
-/

namespace PiFabric.Wake

open JsString LineLog

/-- The watermarks of the journal, and those of the overflow files. -/
structure Marks where
  pending : Pending
  deferred : JsString → Option WakeDelivery

def Marks.held (marks : Marks) (root : JsString) : Option WakeDelivery :=
  (marks.deferred root).or (marks.pending.get? root)

def IsRoot (directory root : JsString) : Prop :=
  ∃ name, IsName name ∧ root = rootAt directory name

/-- A watermark that an overflow file may hold. -/
structure Deferrable (directory root : JsString) (delivery : WakeDelivery) : Prop where
  watermarked : Watermarked directory root delivery
  deferredAt : delivery.deferredAt.all isSafe = true
  small : (watermark root delivery).bytes.length ≤ recordMaxBytes

structure Holds (directory : JsString) (disk : Disk) (marks : Marks) : Prop where
  journal : Journal directory disk marks.pending
  file : ∀ root, IsRoot directory root → disk.overflow (overflowName root)
    = (marks.deferred root).map fun delivery => (watermark root delivery).bytes
  deferrable : ∀ root delivery, marks.deferred root = some delivery →
    Deferrable directory root delivery
  apart : ∀ root, marks.pending.has root = true → marks.deferred root = none

variable {directory root other : JsString} {disk : Disk} {marks marks' : Marks} {cache : Cache}

theorem overflowName_injective (first : IsRoot directory root) (second : IsRoot directory other)
    (same : overflowName root = overflowName other)
    : root = other := by
  obtain ⟨name, named, rfl⟩ := first
  obtain ⟨name', named', rfl⟩ := second
  unfold overflowName at same
  rw [basename_rootAt named, basename_rootAt named'] at same
  rw [List.append_cancel_right same]

theorem Holds.readOverflow (held : IsDirectory directory) (h : Holds directory disk marks)
    (isRoot : IsRoot directory root)
    : readOverflow directory disk (overflowName root) = .ok (marks.deferred root) := by
  have file := h.file root isRoot
  cases found : marks.deferred root with
  | none =>
      rw [found] at file
      unfold Wake.readOverflow
      rw [file]
      rfl
  | some delivery =>
      rw [found] at file
      obtain ⟨watermarked, safe, small⟩ := h.deferrable root delivery found
      have read : (Json.ofBytes (watermark root delivery).bytes).bind (readRecord directory)
          = some (watermark root delivery) := by
        unfold Record.bytes
        rw [Json.ofBytes_bytes]
        exact readRecord_json held watermarked
      unfold Wake.readOverflow
      rw [file]
      simp only [Option.map_some]
      rw [if_neg (by omega), read]
      exact if_pos ⟨rfl, rfl, safe⟩

/-- At most one of the two holds a root's watermark, so their order does not matter. -/
theorem Holds.held_eq (h : Holds directory disk marks) (root : JsString)
    : (marks.pending.get? root).or (marks.deferred root) = marks.held root := by
  unfold Marks.held
  cases found : marks.pending.get? root with
  | none => simp
  | some delivery => simp [h.apart root (JsMap.has_of_get? found)]

def WakeDelivery.Of (delivery : WakeDelivery) (event : Event) : Prop :=
  delivery.id = event.id ∧ delivery.sequence = some event.sequence

/-- The watermark of a root is the one it was, or the event's. -/
def Kept (event : Event) (marks marks' : Marks) (root : JsString) : Prop :=
  marks'.held root = marks.held root ∨ ∃ delivery, marks'.held root = some delivery ∧
    delivery.Of event

def Reached (event : Event) (marks : Marks) (root : JsString) : Prop :=
  ∃ delivery, marks.held root = some delivery ∧ covers delivery event.delivery = true

variable {delivery : WakeDelivery} {event : Event}

theorem WakeDelivery.Of.covers (h : delivery.Of event)
    : covers delivery event.delivery = true := by
  simp [Wake.covers, Event.delivery, h.1]

theorem WakeDelivery.Of.covers_eq {waiting : WakeDelivery} (h : waiting.Of event)
    (delivery : WakeDelivery)
    : Wake.covers delivery waiting = Wake.covers delivery event.delivery := by
  simp only [Wake.covers, Event.delivery, h.1, h.2]
  rfl

theorem Kept.trans {marks'' : Marks} (hf : Kept event marks marks' root)
    (hs : Kept event marks' marks'' root)
    : Kept event marks marks'' root := by
  rcases hs with same | its
  · rcases hf with same' | ⟨delivery, found, its⟩
    · exact .inl (same.trans same')
    · exact .inr ⟨delivery, same.trans found, its⟩
  · exact .inr its

theorem Reached.kept (h : Reached event marks root) (kept : Kept event marks marks' root)
    : Reached event marks' root := by
  rcases kept with same | ⟨delivery, found, its⟩
  · obtain ⟨delivery, found, covered⟩ := h
    exact ⟨delivery, same.trans found, covered⟩
  · exact ⟨delivery, found, its.covers⟩

/-- What an operation leaves: marks that the files hold, under a stamp of their own. -/
structure Leaves (directory : JsString) (disk : Disk) (marks : Marks)
    (result : Disk × Cache × Except Failure Unit) (marks' : Marks) : Prop where
  holds : Holds directory result.1 marks'
  advances : Advances disk marks.pending result.1 marks'.pending
  coherent : Coherent result.1 marks'.pending result.2.1
  fresh : result.2.2 = .ok () → Fresh result.1 marks'.pending result.2.1

theorem Holds.append (held : IsDirectory directory) (h : Holds directory disk marks)
    (coherent : Coherent disk marks.pending cache) {record : Record}
    (valid : Valid directory record) {fate : Fate} (whole : fate.Whole record)
    (alone : record.op = .pending → marks.deferred record.root = none)
    : ∃ pending', Leaves directory disk marks (append directory disk cache record fate)
        { marks with pending := pending' }
      ∧ (pending' = record.apply marks.pending
        ∨ pending' = marks.pending ∧ (append directory disk cache record fate).2.2 ≠ .ok ()) := by
  obtain ⟨pending', journal, advances, overflow, coherent', applied, fresh⟩ :=
    append_sound held h.journal coherent valid whole
  refine ⟨pending', ⟨⟨journal, fun root isRoot => ?_, h.deferrable, fun root has => ?_⟩, advances,
    coherent', fresh⟩, applied⟩
  · rw [overflow]
    exact h.file root isRoot
  · rcases applied with rfl | ⟨rfl, -⟩
    · have before : marks.pending.has root = true
          ∨ record.op = .pending ∧ record.root = root := by
        have inside := JsMap.has_iff.mp has
        unfold Record.apply at inside
        cases op : record.op with
        | pending =>
            simp only [op, JsMap.keys_set] at inside
            split at inside
            · exact .inl (JsMap.has_iff.mpr inside)
            · rcases List.mem_append.mp inside with old | new
              · exact .inl (JsMap.has_iff.mpr old)
              · exact .inr ⟨rfl, (List.mem_singleton.mp new).symm⟩
        | ack =>
            simp only [op] at inside
            have smaller (target : JsString) (kept : root ∈ (marks.pending.delete target).keys)
                : marks.pending.has root = true := by
              obtain ⟨entry, listed, rfl⟩ := List.mem_map.mp kept
              exact JsMap.has_iff.mpr (List.mem_map.mpr ⟨entry, List.mem_of_mem_filter listed, rfl⟩)
            split at inside
            · split at inside
              · exact .inl (smaller _ inside)
              · exact .inl (JsMap.has_iff.mpr inside)
            · exact .inl (JsMap.has_iff.mpr inside)
      rcases before with old | ⟨op, rfl⟩
      · exact h.apart root old
      · exact alone op
    · exact h.apart root has

theorem Holds.setOverflow (h : Holds directory disk marks) (isRoot : IsRoot directory root)
    {mark : Option WakeDelivery}
    (deferrable : ∀ delivery, mark = some delivery → Deferrable directory root delivery)
    (alone : mark.isSome = true → marks.pending.has root = false)
    : Holds directory (disk.setOverflow (overflowName root)
        (mark.map fun delivery => (watermark root delivery).bytes))
        { marks with deferred := Function.update marks.deferred root mark } where
  journal := ⟨h.journal.lines, h.journal.bounded, h.journal.few, h.journal.valid⟩
  file := by
    intro other isOther
    by_cases same : other = root
    · subst same
      simp [Disk.setOverflow]
    · have apart : overflowName other ≠ overflowName root := fun equal =>
        same (overflowName_injective isOther isRoot equal)
      simp only [Disk.setOverflow, Function.update_of_ne apart, Function.update_of_ne same]
      exact h.file other isOther
  deferrable := by
    intro other delivery found
    by_cases same : other = root
    · subst same
      simp only [Function.update_self] at found
      exact deferrable delivery found
    · simp only [Function.update_of_ne same] at found
      exact h.deferrable other delivery found
  apart := by
    intro other has
    by_cases same : other = root
    · subst same
      simp only [Function.update_self]
      by_contra some_
      have absent := alone (Option.isSome_iff_ne_none.mpr some_)
      simp only at has
      rw [absent] at has
      cases has
    · simp only [Function.update_of_ne same]
      exact h.apart other has

theorem valid_watermark (isRoot : IsRoot directory root) (safe : isSafe event.sequence = true)
    (deferredAt : Option Int)
    : Watermarked directory root { event.delivery with deferredAt } := by
  refine ⟨isRoot, ?_⟩
  rintro value ⟨rfl⟩
  exact safe

structure Turned (directory : JsString) (event : Event) (disk : Disk) (marks : Marks)
    (root : JsString) (indexed : Indexed) (marks' : Marks) : Prop where
  leaves : Leaves directory disk marks (indexed.disk, indexed.cache, indexed.outcome) marks'
  kept : Kept event marks marks' root
  others : ∀ other, other ≠ root → marks'.held other = marks.held other
  reached : indexed.outcome = .ok () → Reached event marks' root

theorem appendRoot_sound (held : IsDirectory directory) (h : Holds directory disk marks)
    (fresh : Fresh disk marks.pending cache) (isRoot : IsRoot directory root)
    (safe : isSafe event.sequence = true) {fate : Fate}
    (whole : fate.Whole (watermark root event.delivery)) (alone : marks.deferred root = none)
    (available : Int)
    : ∃ marks', Turned directory event disk marks root
        ⟨(append directory disk cache (watermark root event.delivery) fate).1,
          (append directory disk cache (watermark root event.delivery) fate).2.1, available,
          (append directory disk cache (watermark root event.delivery) fate).2.2⟩ marks' := by
  obtain ⟨pending', leaves, applied⟩ := h.append held fresh.coherent
    (valid_watermark isRoot safe none) whole fun _ => alone
  refine ⟨{ marks with pending := pending' }, leaves, ?_, fun other apart => ?_, fun ended => ?_⟩
  · rcases applied with rfl | ⟨rfl, -⟩
    · refine .inr ⟨event.delivery, ?_, rfl, rfl⟩
      change (marks.deferred root).or ((marks.pending.set root event.delivery).get? root) = _
      rw [alone, JsMap.get?_set_self]
      rfl
    · exact .inl rfl
  · rcases applied with rfl | ⟨rfl, -⟩
    · change (marks.deferred other).or ((marks.pending.set root event.delivery).get? other) = _
      rw [JsMap.get?_set, if_neg apart]
      rfl
    · rfl
  · rcases applied with rfl | ⟨-, failed⟩
    · refine ⟨event.delivery, ?_, @WakeDelivery.Of.covers event.delivery event ⟨rfl, rfl⟩⟩
      change (marks.deferred root).or ((marks.pending.set root event.delivery).get? root) = _
      rw [alone, JsMap.get?_set_self]
      rfl
    · exact absurd ended failed

def Marks.defer (marks : Marks) (root : JsString) (mark : Option WakeDelivery) : Marks where
  pending := marks.pending
  deferred := Function.update marks.deferred root mark

theorem Marks.held_defer (marks : Marks) (root : JsString) (mark : Option WakeDelivery)
    : (marks.defer root mark).held root = mark.or (marks.pending.get? root) := by
  simp [Marks.held, Marks.defer]

theorem Marks.held_defer_of_ne {mark : Option WakeDelivery} (apart : other ≠ root)
    : (marks.defer root mark).held other = marks.held other := by
  simp [Marks.held, Marks.defer, Function.update_of_ne apart]

theorem deferRoot_sound (h : Holds directory disk marks) (fresh : Fresh disk marks.pending cache)
    (isRoot : IsRoot directory root) (safe : isSafe event.sequence = true) (its : delivery.Of event)
    (deferredSafe : delivery.deferredAt.all isSafe = true) (alone : marks.pending.has root = false)
    (fate : FileFate) (available : Int)
    : ∃ marks', Turned directory event disk marks root
        ⟨(writeOverflow disk (watermark root delivery) fate).1, cache, available,
          (writeOverflow disk (watermark root delivery) fate).2⟩ marks' := by
  have unchanged (outcome : Except Failure Unit) (failed : outcome ≠ .ok ())
      : Turned directory event disk marks root ⟨disk, cache, available, outcome⟩ marks :=
    ⟨⟨h, .refl .., fresh.coherent, fun _ => fresh⟩, .inl rfl, fun _ _ => rfl,
      fun ended => absurd ended failed⟩
  unfold writeOverflow
  split_ifs with large took
  · exact ⟨marks, unchanged _ (by simp)⟩
  · have watermarked : Watermarked directory root delivery := by
      refine ⟨isRoot, fun value found => ?_⟩
      have same : some event.sequence = some value := its.2.symm.trans found
      exact Option.some.inj same ▸ safe
    have deferrable : Deferrable directory root delivery :=
      ⟨watermarked, deferredSafe, by omega⟩
    have set : Holds directory (disk.setOverflow (overflowName root)
        ((some delivery).map fun delivery => (watermark root delivery).bytes))
        (marks.defer root (some delivery)) :=
      h.setOverflow isRoot (fun other same => Option.some.inj same ▸ deferrable) fun _ => alone
    have found : (marks.defer root (some delivery)).held root = some delivery := by
      rw [Marks.held_defer]
      rfl
    have coherent : Coherent (disk.setOverflow (overflowName root)
        ((some delivery).map fun delivery => (watermark root delivery).bytes)) marks.pending cache :=
      ⟨fresh.coherent.upto, fresh.coherent.current⟩
    exact ⟨marks.defer root (some delivery),
      ⟨set, .inl ⟨rfl, rfl, rfl⟩, coherent, fun _ => ⟨coherent, fresh.pending, fresh.stamped⟩⟩,
      .inr ⟨_, found, its⟩, fun _ apart => Marks.held_defer_of_ne apart,
      fun _ => ⟨_, found, its.covers⟩⟩
  · cases fate with
    | done => exact absurd rfl took
    | stops took => exact ⟨marks, unchanged _ (by simp [FileFate.outcome])⟩

theorem indexRoot_sound (held : IsDirectory directory) (h : Holds directory disk marks)
    (fresh : Fresh disk marks.pending cache) (isRoot : IsRoot directory root)
    (safe : isSafe event.sequence = true) {fate : RootFate}
    (whole : fate.append.Whole (watermark root event.delivery)) (available : Int)
    : ∃ marks', Turned directory event disk marks root
        (indexRoot directory event disk cache available root fate) marks' := by
  unfold indexRoot
  rw [h.readOverflow held isRoot]
  simp only [fresh.pending, h.held_eq root]
  by_cases covered : (marks.held root).any (covers · event.delivery) = true
  · rw [if_pos covered]
    refine ⟨marks, ⟨h, .refl .., fresh.coherent, fun _ => fresh⟩, .inl rfl, fun _ _ => rfl,
      fun _ => ?_⟩
    exact (Option.any_eq_true ..).mp covered
  rw [if_neg covered]
  by_cases appends : (marks.pending.has root || (marks.deferred root).isNone
      && decide (0 < available)) = true
  · rw [if_pos appends]
    refine appendRoot_sound held h fresh isRoot safe whole ?_ _
    rcases Bool.or_eq_true_iff.mp appends with has | room
    · exact h.apart root has
    · exact Option.isNone_iff_eq_none.mp (Bool.and_eq_true_iff.mp room).1
  · rw [if_neg appends]
    refine deferRoot_sound h fresh isRoot safe ?_ ?_ ?_ _ _
    · exact ⟨rfl, rfl⟩
    · cases found : marks.deferred root with
      | none => exact safe
      | some delivery =>
          have safeAt := (h.deferrable root delivery found).deferredAt
          cases at_ : delivery.deferredAt with
          | none => simpa [at_] using safe
          | some value => simpa [at_] using safeAt
    · simp only [Bool.or_eq_true, not_or, Bool.not_eq_true] at appends
      exact appends.1

/-- What an index call leaves: each root keeps its watermark or gets the event's, the roots that are
not named keep theirs, and a call that returns has reached all that are.
-/
structure IndexedAll (directory : JsString) (event : Event) (disk : Disk) (marks : Marks)
    (roots : List (JsString × RootFate)) (result : Disk × Cache × Except Failure Unit)
    (marks' : Marks) : Prop where
  leaves : Leaves directory disk marks result marks'
  kept : ∀ root, Kept event marks marks' root
  others : ∀ root, root ∉ roots.map Prod.fst → marks'.held root = marks.held root
  reached : result.2.2 = .ok () → ∀ root ∈ roots.map Prod.fst, Reached event marks' root

/-- Every write of the call ends whole. -/
def WholeFates (event : Event) (roots : List (JsString × RootFate)) : Prop :=
  ∀ entry ∈ roots, entry.2.append.Whole (watermark entry.1 event.delivery)

theorem indexRoots_sound (held : IsDirectory directory) (safe : isSafe event.sequence = true)
    {roots : List (JsString × RootFate)}
    (isRoot : ∀ root ∈ roots.map Prod.fst, IsRoot directory root) (whole : WholeFates event roots)
    (h : Holds directory disk marks) (fresh : Fresh disk marks.pending cache) (available : Int)
    : ∃ marks', IndexedAll directory event disk marks roots
        (indexRoots directory event roots disk cache available) marks' := by
  induction roots generalizing disk cache marks available with
  | nil =>
      exact ⟨marks, ⟨h, .refl .., fresh.coherent, fun _ => fresh⟩, fun _ => .inl rfl,
        fun _ _ => rfl, fun _ => by simp⟩
  | cons entry rest ih =>
      obtain ⟨root, fate⟩ := entry
      simp only [List.map_cons, List.mem_cons, forall_eq_or_imp] at isRoot
      have wholeFirst := whole (root, fate) List.mem_cons_self
      have wholeRest : WholeFates event rest := fun other member =>
        whole other (List.mem_cons_of_mem _ member)
      obtain ⟨middle, turned⟩ := indexRoot_sound held h fresh isRoot.1 safe wholeFirst available
      have keptFirst (other : JsString) : Kept event marks middle other := by
        by_cases same : other = root
        · exact same ▸ turned.kept
        · exact .inl (turned.others other same)
      unfold indexRoots
      simp only
      cases outcome : (indexRoot directory event disk cache available root fate).outcome with
      | error failure =>
          have leaves := turned.leaves
          rw [outcome] at leaves
          refine ⟨middle, leaves, keptFirst, fun other absent => ?_, by simp⟩
          simp only [List.map_cons, List.mem_cons, not_or] at absent
          exact turned.others other absent.1
      | ok done =>
          have ended : (indexRoot directory event disk cache available root fate).outcome = .ok () :=
            outcome
          obtain ⟨marks', leaves, kept, others, reached⟩ := ih isRoot.2 wholeRest
            turned.leaves.holds (turned.leaves.fresh ended)
            (indexRoot directory event disk cache available root fate).available
          refine ⟨marks', ⟨leaves.holds, turned.leaves.advances.trans leaves.advances,
            leaves.coherent, leaves.fresh⟩, fun other => (keptFirst other).trans (kept other),
            fun other absent => ?_, fun ends other member => ?_⟩
          · simp only [List.map_cons, List.mem_cons, not_or] at absent
            exact (others other absent.2).trans (turned.others other absent.1)
          · simp only [List.map_cons, List.mem_cons] at member
            rcases member with rfl | later
            · exact (turned.reached ended).kept (kept other)
            · exact reached ends other later

/-- An index call keeps the marks, and reaches every root it names once it returns. -/
theorem indexResidentDeliveries_sound (held : IsDirectory directory)
    (safe : isSafe event.sequence = true) {roots : List (JsString × RootFate)}
    (isRoot : ∀ root ∈ roots.map Prod.fst, IsRoot directory root) (whole : WholeFates event roots)
    (h : Holds directory disk marks) (coherent : Coherent disk marks.pending cache)
    : ∃ marks', IndexedAll directory event disk marks roots
        (indexResidentDeliveries directory disk cache event roots) marks' := by
  obtain ⟨fresh, refreshed, isFresh⟩ := refresh_ok held h.journal coherent
  unfold indexResidentDeliveries
  simp only [refreshed]
  exact indexRoots_sound held safe isRoot whole h isFresh _

/-- What an acknowledgement leaves: at most the root's covered watermark is gone. -/
structure Acknowledged (directory : JsString) (disk : Disk) (marks : Marks) (root : JsString)
    (delivery : WakeDelivery) (result : Disk × Cache × Except Failure Unit) (marks' : Marks)
    : Prop where
  leaves : Leaves directory disk marks result marks'
  others : ∀ other, other ≠ root → marks'.held other = marks.held other
  held : marks'.held root = marks.held root
    ∨ marks'.held root = none ∧ ∃ waiting, marks.held root = some waiting
      ∧ covers delivery waiting = true

/-- The removal of an overflow record that the acknowledgement covers. -/
theorem acknowledgeOverflow_sound (held : IsDirectory directory) (h : Holds directory disk marks)
    (fresh : Fresh disk marks.pending cache) (isRoot : IsRoot directory root)
    (delivery : WakeDelivery) (fate : FileFate)
    : ∃ marks', Acknowledged directory disk marks root delivery
        ((acknowledgeOverflow directory disk root delivery fate).1, cache,
          (acknowledgeOverflow directory disk root delivery fate).2) marks' := by
  have unchanged (outcome : Except Failure Unit)
      : Acknowledged directory disk marks root delivery (disk, cache, outcome) marks :=
    ⟨⟨h, .refl .., fresh.coherent, fun _ => fresh⟩, fun _ _ => rfl, .inl rfl⟩
  unfold acknowledgeOverflow
  rw [h.readOverflow held isRoot]
  simp only
  split_ifs with covered took
  · obtain ⟨waiting, found, covers_⟩ := (Option.any_eq_true ..).mp covered
    have alone : marks.pending.get? root = none := by
      cases pending : marks.pending.get? root with
      | none => rfl
      | some other =>
          have absent := h.apart root (JsMap.has_of_get? pending)
          rw [absent] at found
          cases found
    have set : Holds directory (disk.setOverflow (overflowName root) none)
        (marks.defer root none) :=
      @Holds.setOverflow _ _ _ _ h isRoot none (by simp) (by simp)
    have coherent : Coherent (disk.setOverflow (overflowName root) none) marks.pending cache :=
      ⟨fresh.coherent.upto, fresh.coherent.current⟩
    refine ⟨marks.defer root none,
      ⟨set, .inl ⟨rfl, rfl, rfl⟩, coherent, fun _ => ⟨coherent, fresh.pending, fresh.stamped⟩⟩,
      fun other apart => Marks.held_defer_of_ne apart, .inr ⟨?_, waiting, ?_, covers_⟩⟩
    · rw [Marks.held_defer, alone]
      rfl
    · unfold Marks.held
      rw [found]
      rfl
  · exact ⟨marks, unchanged _⟩
  · exact ⟨marks, unchanged _⟩

/-- An acknowledgement removes at most the watermark that it covers. -/
theorem acknowledgeResidentDelivery_sound (held : IsDirectory directory)
    (h : Holds directory disk marks) (coherent : Coherent disk marks.pending cache)
    (isRoot : IsRoot directory root)
    (safe : ∀ value, delivery.sequence = some value → isSafe value = true) {fate : RootFate}
    (whole : fate.append.Whole { root, delivery, op := .ack })
    : ∃ marks', Acknowledged directory disk marks root delivery
        (acknowledgeResidentDelivery directory disk cache root delivery fate) marks' := by
  obtain ⟨fresh, refreshed, isFresh⟩ := refresh_ok held h.journal coherent
  unfold acknowledgeResidentDelivery
  simp only [refreshed, isFresh.pending]
  split_ifs with covered
  · obtain ⟨waiting, found, covers_⟩ := (Option.any_eq_true ..).mp covered
    have alone := h.apart root (JsMap.has_of_get? found)
    have valid : Valid directory { root, delivery, op := .ack } := ⟨isRoot, safe⟩
    obtain ⟨pending', leaves, applied⟩ := h.append held isFresh.coherent valid whole (by simp)
    have before : marks.held root = some waiting := by
      unfold Marks.held
      rw [alone, found]
      rfl
    have first : Acknowledged directory disk marks root delivery
        (append directory disk fresh { root, delivery, op := .ack } fate.append)
        { marks with pending := pending' } := by
      rcases applied with rfl | ⟨rfl, -⟩
      · have gone : Record.apply marks.pending { root, delivery, op := .ack }
            = marks.pending.delete root := by
          simp [Record.apply, found, covers_]
        refine ⟨leaves, fun other apart => ?_, .inr ⟨?_, waiting, before, covers_⟩⟩
        · simp only [Marks.held, gone]
          rw [JsMap.get?_delete, if_neg apart]
        · simp only [Marks.held, gone, alone]
          rw [JsMap.get?_delete, if_pos rfl]
          rfl
      · exact ⟨leaves, fun _ _ => rfl, .inl rfl⟩
    cases outcome : (append directory disk fresh { root, delivery, op := .ack }
        fate.append).2.2 with
    | error failure =>
        exact ⟨_, ⟨first.leaves.holds, first.leaves.advances, first.leaves.coherent, by simp⟩,
          first.others, first.held⟩
    | ok done =>
        obtain ⟨marks', second⟩ := acknowledgeOverflow_sound held leaves.holds
          (leaves.fresh outcome) isRoot delivery fate.overflow
        refine ⟨marks', ⟨second.leaves.holds, leaves.advances.trans second.leaves.advances,
          second.leaves.coherent, second.leaves.fresh⟩,
          fun other apart => (second.others other apart).trans (first.others other apart), ?_⟩
        rcases second.held with same | ⟨none_, other, found', covers'⟩
        · rcases first.held with same' | ⟨none', rest⟩
          · exact .inl (same.trans same')
          · exact .inr ⟨same.trans none', rest⟩
        · rcases first.held with same' | ⟨none', rest⟩
          · exact .inr ⟨none_, other, same' ▸ found', covers'⟩
          · exact .inr ⟨none_, rest⟩
  · exact acknowledgeOverflow_sound held h isFresh isRoot delivery fate.overflow

theorem residentUnacknowledgedDelivery_eq (held : IsDirectory directory)
    (h : Holds directory disk marks) (coherent : Coherent disk marks.pending cache)
    (isRoot : IsRoot directory root)
    : residentUnacknowledgedDelivery directory disk cache root = .ok (marks.held root) := by
  obtain ⟨fresh, refreshed, isFresh⟩ := refresh_ok held h.journal coherent
  unfold residentUnacknowledgedDelivery
  rw [refreshed, h.readOverflow held isRoot]
  unfold Marks.held
  rw [← isFresh.pending]
  rfl

theorem Holds.checkpoint (h : Holds directory disk marks)
    (bounded : (checkpoint marks.pending).length ≤ indexMaxBytes)
    : Holds directory (disk.write (checkpoint marks.pending)) marks where
  journal := h.journal.checkpoint bounded
  file := h.file
  deferrable := h.deferrable
  apart := h.apart

end PiFabric.Wake
