import PiFabric.Wake.Marks

/-! Runs of index calls and acknowledgements by processes that each cache the journal. A run in
which no append stops inside its line keeps every index readable and every nudge; a torn line blocks
it.
-/

namespace PiFabric.Wake

open JsString LineLog

/-- The files, what each process caches, the events of the calls so far, and for each root the
newest event whose index call returned and that no acknowledgement has covered.
-/
structure World (π : Type) where
  disk : Disk
  caches : π → Cache
  events : List Event
  newest : JsString → Option Event

variable {π : Type}

def start : World π where
  disk := { journal := none, stamp := 0, overflow := fun _ => none }
  caches := fun _ => emptyCache
  events := []
  newest := fun _ => none

inductive Step (π : Type) where
  | index (process : π) (event : Event) (roots : List (JsString × RootFate))
  | acknowledge (process : π) (root : JsString) (delivery : WakeDelivery) (fate : RootFate)
  | read (process : π)
  | restart (process : π)

/-- Events come in rising sequences, and one may be indexed again. -/
def Rising (events : List Event) (event : Event) : Prop :=
  ∀ earlier ∈ events, earlier = event
    ∨ earlier.sequence < event.sequence ∧ earlier.id ≠ event.id

/-- The steps that the callers take. -/
def Admissible (directory : JsString) (world : World π) : Step π → Prop
  | .index _ event roots => isSafe event.sequence = true ∧ Rising world.events event
      ∧ ∀ root ∈ roots.map Prod.fst, IsRoot directory root
  | .acknowledge _ root delivery _ => IsRoot directory root
      ∧ ∀ value, delivery.sequence = some value → isSafe value = true
  | .read _ => True
  | .restart _ => True

/-- An acknowledgement that names by its id a delivery later than the newest one whose call returned
has a sequence at least as high as that one's.
-/
def NamesBySequence (world : World π) (root : JsString) (delivery : WakeDelivery) : Prop :=
  ∀ newest, world.newest root = some newest → ∀ event ∈ world.events,
    newest.sequence < event.sequence → delivery.id = event.id →
    ∃ value, delivery.sequence = some value ∧ newest.sequence ≤ value

/-- No append stops inside its line, and an acknowledgement does not pass the newest delivery by. -/
def Meets (world : World π) : Step π → Prop
  | .index _ event roots => WholeFates event roots
  | .acknowledge _ root delivery fate =>
      fate.append.Whole { root, delivery, op := .ack } ∧ NamesBySequence world root delivery
  | .read _ => True
  | .restart _ => True

def thrown {α : Type} : Except Failure α → Option Failure
  | .ok _ => none
  | .error failure => some failure

theorem thrown_eq_some {α : Type} {result : Except Failure α} {failure : Failure}
    (h : thrown result = some failure)
    : result = .error failure := by
  cases result with
  | ok value => cases h
  | error other => exact congrArg Except.error (Option.some.inj h)

theorem thrown_eq_none {result : Except Failure Unit} (h : thrown result = none)
    : result = .ok () := by
  cases result with
  | ok value => rfl
  | error failure => cases h

section
variable [DecidableEq π]

def World.step (directory : JsString) (world : World π) : Step π → World π
  | .index process event roots =>
      let result := indexResidentDeliveries directory world.disk (world.caches process) event roots
      {
        disk := result.1
        caches := Function.update world.caches process result.2.1
        events := event :: world.events
        newest := fun root =>
          if thrown result.2.2 = none ∧ root ∈ roots.map Prod.fst then some event
          else world.newest root
      }
  | .acknowledge process root delivery fate =>
      let result :=
        acknowledgeResidentDelivery directory world.disk (world.caches process) root delivery fate
      {
        disk := result.1
        caches := Function.update world.caches process result.2.1
        events := world.events
        newest := fun other =>
          if other = root ∧ (world.newest root).any fun newest => covers delivery newest.delivery
          then none else world.newest other
      }
  | .read process =>
      match refresh directory world.disk (world.caches process) with
      | .error _ => world
      | .ok fresh => { world with caches := Function.update world.caches process fresh }
  | .restart process => { world with caches := Function.update world.caches process emptyCache }

/-- A step, whatever stops. -/
def Next (directory : JsString) (world world' : World π) : Prop :=
  ∃ step, Admissible directory world step ∧ world' = world.step directory step

def WholeNext (directory : JsString) (world world' : World π) : Prop :=
  ∃ step, Admissible directory world step ∧ Meets world step ∧ world' = world.step directory step

end

/-- The files hold the marks, each mark is of an event, and the newest delivery of a root is its
mark or is older than it.
-/
structure Invariant (directory : JsString) (world : World π) (marks : Marks) : Prop where
  holds : Holds directory world.disk marks
  coherent : ∀ process, Coherent world.disk marks.pending (world.caches process)
  marked : ∀ root delivery, marks.held root = some delivery →
    ∃ event ∈ world.events, delivery.Of event
  known : ∀ root newest, world.newest root = some newest → newest ∈ world.events
  newest : ∀ root newest, world.newest root = some newest →
    ∃ event ∈ world.events, ∃ delivery, marks.held root = some delivery ∧ delivery.Of event
      ∧ (event = newest ∨ newest.sequence < event.sequence)

variable {directory : JsString} {world world' : World π} {marks : Marks}

theorem invariant_start : Invariant directory (start : World π) ⟨JsMap.empty, fun _ => none⟩ where
  holds := {
    journal := ⟨⟨[], rfl, by simp, rfl⟩, by simp [start], by simp [JsMap.size, JsMap.empty],
      by simp⟩
    file := fun _ _ => rfl
    deferrable := by simp
    apart := fun _ _ => rfl
  }
  coherent := fun _ => coherent_emptyCache
  marked := by simp [Marks.held]
  known := by simp [start]
  newest := by simp [start]

theorem Coherent.updated [DecidableEq π] {disk : Disk} {pending : Pending} {caches : π → Cache}
    (all : ∀ process, Coherent disk pending (caches process)) {process : π} {cache : Cache}
    (own : Coherent disk pending cache) (other : π)
    : Coherent disk pending (Function.update caches process cache other) := by
  by_cases same : other = process
  · subst same
    simpa using own
  · rw [Function.update_of_ne same]
    exact all other

/-- A mark that covers the event of a call is of that event, since it is the newest of all. -/
theorem covers_of_rising {events : List Event} {event known : Event} {delivery : WakeDelivery}
    (rising : Rising events event) (member : known ∈ event :: events) (its : delivery.Of known)
    (covered : covers delivery event.delivery = true)
    : known = event := by
  rcases List.mem_cons.mp member with same | earlier
  · exact same
  · rcases rising known earlier with same | ⟨below, apart⟩
    · exact same
    · simp only [covers, Event.delivery, its.1, its.2, Bool.or_eq_true, decide_eq_true_eq] at covered
      rcases covered with same | above
      · exact absurd same apart
      · omega

theorem Invariant.index [DecidableEq π] (held : IsDirectory directory)
    (h : Invariant directory world marks) {process : π} {event : Event}
    {roots : List (JsString × RootFate)}
    (admissible : Admissible directory world (.index process event roots))
    (meets : Meets world (.index process event roots))
    : ∃ marks', Invariant directory (world.step directory (.index process event roots)) marks' := by
  obtain ⟨safe, rising, isRoot⟩ := admissible
  obtain ⟨marks', leaves, kept, -, reached⟩ :=
    indexResidentDeliveries_sound held safe isRoot meets h.holds (h.coherent process)
  have later (known : Event) (member : known ∈ world.events)
      : event = known ∨ known.sequence < event.sequence := by
    rcases rising known member with same | ⟨below, -⟩
    · exact .inl same.symm
    · exact .inr below
  have marked (root : JsString) (delivery : WakeDelivery) (found : marks'.held root = some delivery)
      : ∃ known ∈ event :: world.events, delivery.Of known := by
    rcases kept root with same | ⟨its, found', isIts⟩
    · obtain ⟨known, member, isKnown⟩ := h.marked root delivery (same ▸ found)
      exact ⟨known, List.mem_cons_of_mem _ member, isKnown⟩
    · obtain rfl := Option.some.inj (found.symm.trans found')
      exact ⟨event, List.mem_cons_self, isIts⟩
  refine ⟨marks', leaves.holds, fun other => ?_, marked, fun root newest isNewest => ?_,
    fun root newest isNewest => ?_⟩
  · exact Coherent.updated (fun other => (h.coherent other).advances leaves.advances)
      leaves.coherent other
  all_goals
    simp only [World.step] at isNewest
    split at isNewest
  · exact Option.some.inj isNewest ▸ List.mem_cons_self
  · exact List.mem_cons_of_mem _ (h.known root newest isNewest)
  -- The call has returned, so the root's mark covers the event.
  · next ended =>
      obtain rfl := Option.some.inj isNewest
      have ok : (indexResidentDeliveries directory world.disk (world.caches process) event
          roots).2.2 = .ok () := thrown_eq_none ended.1
      obtain ⟨delivery, found, covered⟩ := reached ok root ended.2
      obtain ⟨known, member, its⟩ := marked root delivery found
      exact ⟨known, member, delivery, found, its, .inl (covers_of_rising rising member its covered)⟩
  · obtain ⟨known, member, delivery, found, its, order⟩ := h.newest root newest isNewest
    rcases kept root with same | ⟨delivery', found', its'⟩
    · exact ⟨known, List.mem_cons_of_mem _ member, delivery, same.trans found, its, order⟩
    · exact ⟨event, List.mem_cons_self, delivery', found', its',
        later newest (h.known root newest isNewest)⟩

theorem Invariant.acknowledge [DecidableEq π] (held : IsDirectory directory)
    (h : Invariant directory world marks) {process : π} {root : JsString} {delivery : WakeDelivery}
    {fate : RootFate}
    (admissible : Admissible directory world (.acknowledge process root delivery fate))
    (meets : Meets world (.acknowledge process root delivery fate))
    : ∃ marks', Invariant directory
        (world.step directory (.acknowledge process root delivery fate)) marks' := by
  obtain ⟨isRoot, safe⟩ := admissible
  obtain ⟨marks', leaves, others, left⟩ :=
    acknowledgeResidentDelivery_sound held h.holds (h.coherent process) isRoot safe meets.1
  have kept (other : JsString) (waiting : WakeDelivery) (found : marks'.held other = some waiting)
      : marks.held other = some waiting := by
    by_cases same : other = root
    · subst same
      rcases left with same | ⟨gone, -⟩
      · exact same ▸ found
      · rw [gone] at found
        cases found
    · exact others other same ▸ found
  refine ⟨marks', leaves.holds, fun other => ?_, fun other waiting found => ?_,
    fun other newest isNewest => ?_, fun other newest isNewest => ?_⟩
  · exact Coherent.updated (fun other => (h.coherent other).advances leaves.advances)
      leaves.coherent other
  · exact h.marked other waiting (kept other waiting found)
  all_goals
    simp only [World.step] at isNewest
    split at isNewest
    · cases isNewest
  · exact h.known other newest isNewest
  · next uncovered =>
      obtain ⟨event, member, waiting, found, its, order⟩ := h.newest other newest isNewest
      refine ⟨event, member, waiting, ?_, its, order⟩
      by_cases same : other = root
      · subst same
        rcases left with same | ⟨-, waiting', found', covered⟩
        · exact same.trans found
        · -- The mark is gone, so the acknowledgement covers the newest delivery too.
          obtain rfl := Option.some.inj (found.symm.trans found')
          refine absurd ⟨rfl, ?_⟩ uncovered
          simp only [isNewest, Option.any_some]
          rcases order with rfl | below
          · exact its.covers_eq delivery ▸ covered
          · simp only [covers, its.1, its.2, Bool.or_eq_true, decide_eq_true_eq] at covered
            rcases covered with named | above
            · obtain ⟨value, sequence, atLeast⟩ := meets.2 newest isNewest event member below named
              simp [covers, Event.delivery, sequence, atLeast]
            · cases sequence : delivery.sequence with
              | none => simp [sequence] at above
              | some value =>
                  simp only [sequence, decide_eq_true_eq] at above
                  have atLeast : newest.sequence ≤ value := by omega
                  simp [covers, Event.delivery, sequence, atLeast]
      · exact (others other same).trans found

theorem Invariant.next [DecidableEq π] (held : IsDirectory directory)
    (h : Invariant directory world marks) (next : WholeNext directory world world')
    : ∃ marks', Invariant directory world' marks' := by
  obtain ⟨step, admissible, meets, rfl⟩ := next
  cases step with
  | index process event roots => exact h.index held admissible meets
  | acknowledge process root delivery fate => exact h.acknowledge held admissible meets
  | read process =>
      obtain ⟨fresh, refreshed, isFresh⟩ := refresh_ok held h.holds.journal (h.coherent process)
      simp only [World.step, refreshed]
      exact ⟨marks, h.holds, Coherent.updated h.coherent isFresh.coherent, h.marked, h.known,
        h.newest⟩
  | restart process =>
      exact ⟨marks, h.holds, Coherent.updated h.coherent coherent_emptyCache, h.marked, h.known,
        h.newest⟩

theorem invariant_run [DecidableEq π] (held : IsDirectory directory)
    (run : Relation.ReflTransGen (WholeNext directory) start world)
    : ∃ marks, Invariant directory world marks := by
  induction run with
  | refl => exact ⟨_, invariant_start⟩
  | tail _ next ih =>
      obtain ⟨marks, h⟩ := ih
      exact h.next held next

/-- What a reader of the index may rely on. -/
structure Reliable (directory : JsString) (world : World π) : Prop where
  /-- Every `indexAt` succeeds. -/
  readable : ∀ process, ∃ fresh,
    refresh directory world.disk (world.caches process) = .ok fresh
  /-- No nudge is lost. -/
  unacknowledged : ∀ process root newest, IsRoot directory root →
    world.newest root = some newest → ∃ delivery, residentUnacknowledgedDelivery directory
      world.disk (world.caches process) root = .ok (some delivery)
  /-- A compaction by any process changes no answer to any other. -/
  compacted : ∀ writer reader fresh root, IsRoot directory root →
    refresh directory world.disk (world.caches writer) = .ok fresh →
    (checkpoint fresh.pending).length ≤ indexMaxBytes →
    residentUnacknowledgedDelivery directory (world.disk.write (checkpoint fresh.pending))
        (world.caches reader) root
      = residentUnacknowledgedDelivery directory world.disk (world.caches reader) root
  /-- No root is in the journal's map and in an overflow file. -/
  apart : ∀ process fresh root, IsRoot directory root →
    refresh directory world.disk (world.caches process) = .ok fresh →
    fresh.pending.has root = true → world.disk.overflow (overflowName root) = none

theorem Invariant.reliable (held : IsDirectory directory) (h : Invariant directory world marks)
    : Reliable directory world where
  readable := by
    intro process
    obtain ⟨fresh, refreshed, -⟩ := refresh_ok held h.holds.journal (h.coherent process)
    exact ⟨fresh, refreshed⟩
  unacknowledged := by
    intro process root newest isRoot isNewest
    obtain ⟨-, -, delivery, found, -⟩ := h.newest root newest isNewest
    rw [residentUnacknowledgedDelivery_eq held h.holds (h.coherent process) isRoot, found]
    exact ⟨delivery, rfl⟩
  compacted := by
    intro writer reader fresh root isRoot refreshed bounded
    obtain ⟨fresh', refreshed', isFresh⟩ :=
      refresh_ok held h.holds.journal (h.coherent writer)
    obtain rfl := Except.ok.inj (refreshed.symm.trans refreshed')
    rw [isFresh.pending] at bounded ⊢
    have rewritten := h.holds.checkpoint bounded
    have advances : Advances world.disk marks.pending
        (world.disk.write (checkpoint marks.pending)) marks.pending := by
      refine .inr ?_
      change world.disk.stamp < world.disk.stamp + 1
      omega
    rw [residentUnacknowledgedDelivery_eq held rewritten ((h.coherent reader).advances advances)
      isRoot, residentUnacknowledgedDelivery_eq held h.holds (h.coherent reader) isRoot]
  apart := by
    intro process fresh root isRoot refreshed has
    obtain ⟨fresh', refreshed', isFresh⟩ :=
      refresh_ok held h.holds.journal (h.coherent process)
    obtain rfl := Except.ok.inj (refreshed.symm.trans refreshed')
    rw [isFresh.pending] at has
    rw [h.holds.file root isRoot, h.holds.apart root has]
    rfl

/-- In a run in which no append stops inside its line and no acknowledgement passes the newest
delivery by, the index is readable, loses no nudge, keeps its answers in a compaction, and has no
root in two places.
-/
theorem wake_index_reliable [DecidableEq π] (held : IsDirectory directory)
    (run : Relation.ReflTransGen (WholeNext directory) start world)
    : Reliable directory world := by
  obtain ⟨marks, h⟩ := invariant_run held run
  exact h.reliable held

def residency : JsString := lit "/mesh/residency"

def sleeper : JsString := rootAt residency (lit "a")

def firstEvent : Event where
  id := lit "e1"
  sequence := 1

def indexSleeper (fate : Fate) : Step Bool :=
  .index false firstEvent [(sleeper, { append := fate })]

theorem admissible_indexSleeper (fate : Fate)
    : Admissible residency (start : World Bool) (indexSleeper fate) := by
  refine ⟨by decide, by simp [Rising, start], ?_⟩
  simp only [List.map_cons, List.map_nil, List.mem_singleton, forall_eq]
  exact ⟨lit "a", ⟨by decide, by decide⟩, rfl⟩

theorem wake_index_reliable_once
    : (start.step residency (indexSleeper .done)).newest sleeper = some firstEvent
      ∧ Reliable residency (start.step residency (indexSleeper .done)) := by
  refine ⟨by decide +kernel, wake_index_reliable ⟨by decide, by decide⟩ (.single ⟨indexSleeper .done,
    admissible_indexSleeper .done, ?_, rfl⟩)⟩
  simp [Meets, indexSleeper, WholeFates, Fate.Whole]

/-- An append that stops inside its line leaves an index that nothing reads any more: the rest of
the line never comes, and the next line is appended to it.
-/
theorem torn_line_blocks
    : ∃ world : World Bool, Relation.ReflTransGen (Next residency) start world
      ∧ ∀ process, refresh residency world.disk (world.caches process) = .error .invalidJson := by
  refine ⟨start.step residency (indexSleeper (.partly 5)),
    .single ⟨_, admissible_indexSleeper _, rfl⟩, fun process => thrown_eq_some ?_⟩
  revert process
  decide +kernel

end PiFabric.Wake
