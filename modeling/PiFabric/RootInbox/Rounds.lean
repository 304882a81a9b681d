import PiFabric.Foundation.Outcome
import PiFabric.RootInbox.Render

/-! Round by round the inbox shows each event once, and acknowledges what it shows. -/

namespace PiFabric.RootInbox

open JsString

theorem inboxLe_total (a b : MeshEvent) : (inboxLe a b || inboxLe b a) = true := by
  unfold inboxLe
  by_cases kinds : rank a.kind = rank b.kind
  · by_cases times : a.createdAt = b.createdAt
    · simp [kinds, times, le_total]
    · have other : b.createdAt ≠ a.createdAt := fun same => times same.symm
      simp [kinds, times, other]
  · have other : rank b.kind ≠ rank a.kind := fun same => kinds same.symm
    simp [kinds, other]

theorem inboxLe_iff {a b : MeshEvent}
    : inboxLe a b = true
        ↔ rank a.kind < rank b.kind
          ∨ rank a.kind = rank b.kind
            ∧ (a.createdAt < b.createdAt ∨ a.createdAt = b.createdAt ∧ a.sequence ≤ b.sequence) := by
  unfold inboxLe
  by_cases kinds : rank a.kind = rank b.kind
  · by_cases times : a.createdAt = b.createdAt
    · simp [kinds, times]
    · simp [kinds, times]
  · simp [kinds]

theorem inboxLe_trans (a b c : MeshEvent) (first : inboxLe a b = true) (second : inboxLe b c = true)
    : inboxLe a c = true := by
  rw [inboxLe_iff] at first second ⊢
  rcases first with below | ⟨kinds, first⟩
  · rcases second with above | ⟨same, -⟩
    · exact .inl (below.trans above)
    · exact .inl (same ▸ below)
  · rcases second with above | ⟨same, second⟩
    · exact .inl (kinds ▸ above)
    · refine .inr ⟨kinds.trans same, ?_⟩
      rcases first with below | ⟨times, first⟩
      · rcases second with above | ⟨equal, -⟩
        · exact .inl (below.trans above)
        · exact .inl (equal ▸ below)
      · rcases second with above | ⟨equal, second⟩
        · exact .inl (times ▸ above)
        · exact .inr ⟨times.trans equal, first.trans second⟩

def renderedBytes (event : MeshEvent) : Nat :=
  rowBytes ((renderEvent event).getD [])

/-- What the loop keeps to when it has gone through some events. -/
structure Budgeted (done : List MeshEvent) (budget : Budget) : Prop where
  perm : (budget.shown ++ budget.overflow).Perm done
  actions : budget.shown.filter isAction ++ budget.overflow.filter isAction = done.filter isAction
  actionsOpen : budget.actionsFull = false → budget.overflow.filter isAction = []
  plain : budget.shown.filter (!isAction ·) ++ budget.overflow.filter (!isAction ·)
    = done.filter (!isAction ·)
  plainOpen : budget.full = false → budget.overflow.filter (!isAction ·) = []
  actionBytes : ((budget.shown.filter isAction).map renderedBytes).sum = budget.actionBytes
  actionLimit : budget.actionBytes ≤ maxActionRenderedBytes
  bytes : (budget.shown.map textSize).sum = budget.bytes
  limits : ∀ front event back, budget.shown = front ++ event :: back → isAction event = false →
    front.length < maxEvents ∧ ((front ++ [event]).map textSize).sum ≤ maxTextBytes

theorem budgeted_start : Budgeted [] .start where
  perm := .nil
  actions := rfl
  actionsOpen _ := rfl
  plain := rfl
  plainOpen _ := rfl
  actionBytes := rfl
  actionLimit := Nat.zero_le _
  bytes := rfl
  limits := by
    intro front event back empty
    have lengths := congrArg List.length empty
    simp [Budget.start] at lengths

variable {event : MeshEvent}

/-- A last element is the last of the front or what is put behind it. -/
theorem append_singleton_cases {shown front back : List MeshEvent} {other : MeshEvent}
    (same : shown ++ [event] = front ++ other :: back)
    : (∃ rest, back = rest ++ [event] ∧ shown = front ++ other :: rest)
        ∨ back = [] ∧ front = shown ∧ other = event := by
  rcases List.eq_nil_or_concat back with rfl | ⟨rest, last, rfl⟩
  · obtain ⟨fronts, lasts⟩ := List.append_inj' same rfl
    exact .inr ⟨rfl, fronts.symm, (List.singleton_inj.mp lasts).symm⟩
  · rw [List.concat_eq_append, ← List.cons_append, ← List.append_assoc] at same
    obtain ⟨fronts, lasts⟩ := List.append_inj' same rfl
    exact .inl ⟨rest, by rw [List.concat_eq_append, List.singleton_inj.mp lasts], fronts⟩

variable {done : List MeshEvent} {budget : Budget}

/-- What showing an event keeps of the order and the bytes. -/
theorem Budgeted.show_perm (kept : Budgeted done budget) (event : MeshEvent)
    : ((budget.show event).shown ++ (budget.show event).overflow).Perm (done ++ [event]) := by
  refine List.Perm.trans ?_ (kept.perm.append_right [event])
  change (budget.shown ++ [event] ++ budget.overflow).Perm
    (budget.shown ++ budget.overflow ++ [event])
  rw [List.append_assoc, List.append_assoc]
  exact List.perm_append_comm.append_left _

theorem Budgeted.show_bytes (kept : Budgeted done budget) (event : MeshEvent)
    : ((budget.show event).shown.map textSize).sum = (budget.show event).bytes := by
  change ((budget.shown ++ [event]).map textSize).sum = budget.bytes + textSize event
  rw [List.map_append, List.sum_append, kept.bytes, List.map_singleton, List.sum_singleton]

variable {next : Budget}

theorem Budgeted.afterAction (kept : Budgeted done budget) (action : isAction event = true)
    (step : actionStep budget event = some next)
    : Budgeted (done ++ [event]) next := by
  obtain ⟨row, rendered, rfl⟩ := Option.map_eq_some_iff.mp step
  have size : renderedBytes event = rowBytes row := by rw [renderedBytes, rendered]; rfl
  have own : [event].filter isAction = [event] := by simp [action]
  have others : [event].filter (!isAction ·) = [] := by simp [action]
  split
  · refine {
      kept with
      perm := ?_
      actions := ?_
      actionsOpen := fun closed => by cases closed
      plain := ?_
      plainOpen := ?_
    }
    · rw [← List.append_assoc]
      exact kept.perm.append_right [event]
    · simp only [List.filter_append, own, ← List.append_assoc, kept.actions]
    · simp only [List.filter_append, others, List.append_nil, kept.plain]
    · intro open_
      simp only [List.filter_append, others, List.append_nil]
      exact kept.plainOpen open_
  · rename_i fits
    rw [not_or, Bool.not_eq_true, not_lt] at fits
    have none := kept.actionsOpen fits.1
    have actions := kept.actions
    rw [none, List.append_nil] at actions
    refine {
      perm := kept.show_perm event
      actions := ?_
      actionsOpen := fun _ => none
      plain := ?_
      plainOpen := kept.plainOpen
      actionBytes := ?_
      actionLimit := fits.2
      bytes := kept.show_bytes event
      limits := ?_
    }
    · change (budget.shown ++ [event]).filter isAction ++ budget.overflow.filter isAction = _
      rw [none, List.append_nil, List.filter_append, List.filter_append, actions]
    · change (budget.shown ++ [event]).filter (!isAction ·)
        ++ budget.overflow.filter (!isAction ·) = _
      rw [List.filter_append, List.filter_append, others, List.append_nil, List.append_nil,
        kept.plain]
    · change ((((budget.shown ++ [event]).filter isAction)).map renderedBytes).sum
        = budget.actionBytes + rowBytes row
      rw [List.filter_append, own, List.map_append, List.sum_append, kept.actionBytes,
        List.map_singleton, List.sum_singleton, size]
    · intro front other back whole plain
      rcases append_singleton_cases whole with ⟨rest, -, before⟩ | ⟨-, -, rfl⟩
      · exact kept.limits front other rest before plain
      · rw [action] at plain
        cases plain

/-- Another event is shown where none of its kind is withheld and the rows and the text allow it. -/
theorem Budgeted.afterPlain (kept : Budgeted done budget) (plain : isAction event = false)
    : Budgeted (done ++ [event]) (plainStep budget event) := by
  have own : [event].filter (!isAction ·) = [event] := by simp [plain]
  have others : [event].filter isAction = [] := by simp [plain]
  unfold plainStep
  split
  · refine {
      kept with
      perm := ?_
      actions := ?_
      actionsOpen := ?_
      plain := ?_
      plainOpen := fun closed => by cases closed
    }
    · rw [← List.append_assoc]
      exact kept.perm.append_right [event]
    · simp only [List.filter_append, others, List.append_nil, kept.actions]
    · intro open_
      simp only [List.filter_append, others, List.append_nil]
      exact kept.actionsOpen open_
    · simp only [List.filter_append, own, ← List.append_assoc, kept.plain]
  · rename_i fits
    rw [not_or, not_or, Bool.not_eq_true, not_le] at fits
    obtain ⟨open_, rows, text⟩ := fits
    have none := kept.plainOpen open_
    have plains := kept.plain
    rw [none, List.append_nil] at plains
    refine {
      perm := kept.show_perm event
      actions := ?_
      actionsOpen := kept.actionsOpen
      plain := ?_
      plainOpen := fun _ => none
      actionBytes := ?_
      actionLimit := kept.actionLimit
      bytes := kept.show_bytes event
      limits := ?_
    }
    · change (budget.shown ++ [event]).filter isAction ++ budget.overflow.filter isAction = _
      rw [List.filter_append, List.filter_append, others, List.append_nil, List.append_nil,
        kept.actions]
    · change (budget.shown ++ [event]).filter (!isAction ·)
        ++ budget.overflow.filter (!isAction ·) = _
      rw [none, List.append_nil, List.filter_append, List.filter_append, plains]
    · change ((((budget.shown ++ [event]).filter isAction)).map renderedBytes).sum
        = budget.actionBytes
      rw [List.filter_append, others, List.append_nil, kept.actionBytes]
    · intro front other back whole _
      rcases append_singleton_cases whole with ⟨rest, -, before⟩ | ⟨-, rfl, rfl⟩
      · exact kept.limits front other rest before ‹_›
      · refine ⟨rows, ?_⟩
        rw [List.map_append, List.sum_append, kept.bytes, List.map_singleton, List.sum_singleton]
        rw [not_and, not_lt] at text
        rcases Nat.eq_zero_or_pos budget.shown.length with first | later
        · -- The first row takes its own text alone.
          have small : textSize other ≤ eventTextBytes := min_le_right _ _
          have zero : budget.bytes = 0 := by
            rw [← kept.bytes, List.length_eq_zero_iff.mp first]
            rfl
          rw [zero, Nat.zero_add]
          exact small.trans (by decide)
        · exact text later

theorem Budgeted.step (kept : Budgeted done budget) (step : budgetStep budget event = some next)
    : Budgeted (done ++ [event]) next := by
  unfold budgetStep at step
  split at step
  · exact kept.afterAction ‹_› step
  · obtain rfl := Option.some.inj step
    exact kept.afterPlain (Bool.not_eq_true _ ▸ ‹_›)

theorem budgetStep_shown (step : budgetStep budget event = some next)
    : budget.shown <+: next.shown := by
  unfold budgetStep at step
  split at step
  · obtain ⟨row, -, rfl⟩ := Option.map_eq_some_iff.mp step
    split
    · exact List.prefix_rfl
    · exact List.prefix_append _ _
  · obtain rfl := Option.some.inj step
    unfold plainStep
    split
    · exact List.prefix_rfl
    · exact List.prefix_append _ _

/-- The loop goes through where every time can be rendered, by induction on the events that are
left.
-/
theorem Budgeted.run (kept : Budgeted done budget) {items : List MeshEvent}
    (times : ∀ event ∈ items, DateHolds event.createdAt)
    : ∃ last, items.foldlM budgetStep budget = some last ∧ Budgeted (done ++ items) last
        ∧ budget.shown <+: last.shown := by
  induction items generalizing done budget with
  | nil => exact ⟨budget, rfl, by simpa using kept, List.prefix_rfl⟩
  | cons event rest ih =>
      obtain ⟨next, step⟩ : ∃ next, budgetStep budget event = some next := by
        unfold budgetStep
        split
        · obtain ⟨row, rendered⟩ := Option.isSome_iff_exists.mp
            (renderEvent_isSome_iff.mpr (times event (by simp)))
          rw [actionStep, rendered]
          exact ⟨_, rfl⟩
        · exact ⟨_, rfl⟩
      obtain ⟨last, run, result, more⟩ := ih (kept.step step)
        fun other member => times other (List.mem_cons_of_mem _ member)
      refine ⟨last, ?_, by simpa using result, (budgetStep_shown step).trans more⟩
      rw [List.foldlM_cons, step]
      exact run

/-- The first event is always shown. -/
theorem budgetStep_start (times : DateHolds event.createdAt)
    (fits : isAction event = true → renderedBytes event ≤ maxActionRenderedBytes)
    : ∃ next, budgetStep .start event = some next ∧ next.shown = [event] := by
  unfold budgetStep
  split
  · rename_i action
    obtain ⟨row, rendered⟩ := Option.isSome_iff_exists.mp (renderEvent_isSome_iff.mpr times)
    have size : rowBytes row ≤ maxActionRenderedBytes := by
      have whole := fits action
      rwa [renderedBytes, rendered] at whole
    refine ⟨_, by rw [actionStep, rendered, Option.map_some], ?_⟩
    rw [if_neg]
    · rfl
    · simpa [Budget.start] using size
  · refine ⟨_, rfl, ?_⟩
    rw [plainStep, if_neg]
    · rfl
    · simp [Budget.start, maxEvents]

/-- The first event of each unseen id, by induction on the events. -/
theorem unique_spec (seen : List JsString) (events : List MeshEvent)
    : (unique seen events).1.Sublist events
        ∧ ((unique seen events).1.map MeshEvent.id).Nodup
        ∧ ∀ id, id ∈ (unique seen events).1.map MeshEvent.id
            ↔ id ∈ events.map MeshEvent.id ∧ id ∉ seen := by
  induction events generalizing seen with
  | nil => exact ⟨List.Sublist.refl _, List.nodup_nil, by simp [unique]⟩
  | cons event rest ih =>
      by_cases known : event.id ∈ seen
      · obtain ⟨part, once, ids⟩ := ih seen
        rw [unique, if_pos known]
        refine ⟨part.cons event, once, ?_⟩
        intro id
        rw [ids, List.map_cons, List.mem_cons]
        constructor
        · rintro ⟨there, fresh⟩
          exact ⟨.inr there, fresh⟩
        · rintro ⟨rfl | there, fresh⟩
          · exact absurd known fresh
          · exact ⟨there, fresh⟩
      · obtain ⟨part, once, ids⟩ := ih (seen ++ [event.id])
        rw [unique, if_neg known]
        have own : event.id ∉ (unique (seen ++ [event.id]) rest).1.map MeshEvent.id := by
          rw [ids]
          simp
        refine ⟨part.cons_cons event, List.nodup_cons.mpr ⟨own, once⟩, ?_⟩
        intro id
        rw [List.map_cons, List.mem_cons, ids, List.map_cons, List.mem_cons, List.mem_append,
          List.mem_singleton, not_or]
        constructor
        · rintro (rfl | ⟨there, fresh, -⟩)
          · exact ⟨.inl rfl, known⟩
          · exact ⟨.inr there, fresh⟩
        · rintro ⟨rfl | there, fresh⟩
          · exact .inl rfl
          · by_cases same : id = event.id
            · exact .inl same
            · exact .inr ⟨there, fresh, same⟩

/-- A message shows some of the input's events and withholds the others. It names and acknowledges
those that it renders; each class of events is shown and withheld in its order; and the limits hold.
-/
structure Injection (input : List MeshEvent) (message : InboxMessage)
    (shown overflow : List MeshEvent)
    : Prop where
  rendered : ∃ rows, shown.mapM renderEvent = some rows ∧ message = messageOf shown overflow rows
  ids : message.details.ids = shown.map MeshEvent.id
  receipts : message.details.receipts = shown.flatMap eventReceipts
  among : ∀ event ∈ shown ++ overflow, event ∈ input
  once : ((shown ++ overflow).map MeshEvent.id).Nodup
  covers : ∀ id, id ∈ (shown ++ overflow).map MeshEvent.id ↔ id ∈ input.map MeshEvent.id
  withheld : ∀ event ∈ overflow, event.id ∉ message.details.ids
  actions : (shown.filter isAction ++ overflow.filter isAction).Pairwise (inboxLe · · = true)
  plain : (shown.filter (!isAction ·) ++ overflow.filter (!isAction ·)).Pairwise
    (inboxLe · · = true)
  actionLimit : ((shown.filter isAction).map renderedBytes).sum ≤ maxActionRenderedBytes
  limits : ∀ front event back, shown = front ++ event :: back → isAction event = false →
    front.length < maxEvents ∧ ((front ++ [event]).map textSize).sum ≤ maxTextBytes
  some : input ≠ [] → shown ≠ []

theorem mapM_renderEvent {events : List MeshEvent}
    (times : ∀ event ∈ events, DateHolds event.createdAt)
    : ∃ rows, events.mapM renderEvent = some rows := by
  induction events with
  | nil => exact ⟨[], rfl⟩
  | cons event rest ih =>
      obtain ⟨row, rendered⟩ := Option.isSome_iff_exists.mp
        (renderEvent_isSome_iff.mpr (times event (by simp)))
      obtain ⟨rows, more⟩ := ih fun other member => times other (List.mem_cons_of_mem _ member)
      refine ⟨row :: rows, ?_⟩
      rw [List.mapM_cons, rendered, more]
      rfl

structure Admissible (events : List MeshEvent) : Prop where
  times : ∀ event ∈ events, DateHolds event.createdAt
  fits : ∀ event ∈ events, isAction event = true → renderedBytes event ≤ maxActionRenderedBytes

theorem rootInboxMessage_injection {input : List MeshEvent} (admissible : Admissible input)
    : ∃ message shown overflow, rootInboxMessage input none = some message
        ∧ Injection input message shown overflow := by
  obtain ⟨part, once, ids⟩ := unique_spec [] input
  generalize batch_eq : unique [] input = batch at part once ids
  have sorted := List.mergeSort_perm batch.1 inboxLe
  have among : ∀ event ∈ batch.1.mergeSort inboxLe, event ∈ input := fun event member =>
    part.subset (sorted.mem_iff.mp member)
  obtain ⟨budget, run, kept, -⟩ := budgeted_start.run fun event member =>
    admissible.times event (among event member)
  rw [List.nil_append] at kept
  have order := List.pairwise_mergeSort inboxLe_trans inboxLe_total batch.1
  have perm := kept.perm.trans sorted
  have inside : ∀ event ∈ budget.shown ++ budget.overflow, event ∈ input := fun event member =>
    part.subset (perm.mem_iff.mp member)
  have distinct : ((budget.shown ++ budget.overflow).map MeshEvent.id).Nodup :=
    (perm.map MeshEvent.id).nodup_iff.mpr once
  obtain ⟨rows, rendered⟩ := mapM_renderEvent fun event member =>
    admissible.times event (inside event (List.mem_append_left _ member))
  refine ⟨messageOf budget.shown budget.overflow rows, budget.shown, budget.overflow, ?_, {
    rendered := ⟨rows, rendered, rfl⟩
    ids := rfl
    receipts := rfl
    among := inside
    once := distinct
    covers := ?_
    withheld := ?_
    actions := ?_
    plain := ?_
    actionLimit := ?_
    limits := kept.limits
    some := ?_
  }⟩
  · simp only [rootInboxMessage, batch_eq]
    rw [rootInboxBudget, run]
    simp [rendered]
  · intro id
    rw [(perm.map MeshEvent.id).mem_iff, ids]
    simp
  · intro event member named
    rw [List.map_append, List.nodup_append] at distinct
    exact distinct.2.2 event.id named event.id (List.mem_map_of_mem member) rfl
  · rw [kept.actions]
    exact order.filter _
  · rw [kept.plain]
    exact order.filter _
  · rw [kept.actionBytes]
    exact kept.actionLimit
  · intro nonempty none
    -- The loop starts with an event, shows it, and shows it to the end.
    cases items : batch.1.mergeSort inboxLe with
    | nil =>
        rw [items] at sorted
        obtain ⟨event, member⟩ := List.exists_mem_of_ne_nil input nonempty
        have there := (ids event.id).mpr ⟨List.mem_map_of_mem member, List.not_mem_nil⟩
        rw [sorted.symm.eq_nil] at there
        cases there
    | cons event rest =>
        have own := among event (by rw [items]; simp)
        obtain ⟨next, step, first⟩ := budgetStep_start (admissible.times event own)
          (admissible.fits event own)
        obtain ⟨last, more, -, shown⟩ := (budgeted_start.step step).run fun other member =>
          admissible.times other (among other (by rw [items]; exact List.mem_cons_of_mem _ member))
        rw [items, List.foldlM_cons, step] at run
        obtain rfl : last = budget := Option.some.inj (more.symm.trans run)
        rw [first, none] at shown
        exact absurd (List.prefix_nil.mp shown) (by simp)

/-- The ids that successive messages name, each built from the events that none before it has named;
none where a message throws or the rounds do not suffice.
-/
def injections : Nat → List MeshEvent → Option (List (List JsString))
  | _, [] => some []
  | 0, _ => none
  | rounds + 1, events => do
      let message ← rootInboxMessage events none
      let later ← injections rounds (events.filter (·.id ∉ message.details.ids))
      return message.details.ids :: later

/-- The rounds end and name each id once, by induction on a bound of the events that are left. -/
theorem injections_once {rounds : Nat} {events : List MeshEvent} (admissible : Admissible events)
    (enough : events.length ≤ rounds)
    : ∃ named, injections rounds events = some named ∧ named.flatten.Nodup
        ∧ ∀ id, id ∈ named.flatten ↔ id ∈ events.map MeshEvent.id := by
  induction rounds generalizing events with
  | zero =>
      obtain rfl := List.length_eq_zero_iff.mp (Nat.le_zero.mp enough)
      exact ⟨[], rfl, List.nodup_nil, by simp⟩
  | succ rounds ih =>
      cases events with
      | nil => exact ⟨[], rfl, List.nodup_nil, by simp⟩
      | cons event rest =>
          generalize all : event :: rest = events at *
          have nonempty : events ≠ [] := by
            rw [← all]
            simp
          obtain ⟨message, shown, overflow, built, injection⟩ :=
            rootInboxMessage_injection admissible
          obtain ⟨first, member⟩ := List.exists_mem_of_ne_nil shown (injection.some nonempty)
          have named : first.id ∈ message.details.ids := by
            rw [injection.ids]
            exact List.mem_map_of_mem member
          have fewer : (events.filter (·.id ∉ message.details.ids)).length < events.length :=
            List.length_filter_lt_length_iff_exists.mpr
              ⟨first, injection.among first (List.mem_append_left _ member), by simpa using named⟩
          have kept : ∀ other ∈ events.filter (·.id ∉ message.details.ids), other ∈ events :=
            fun other there => (List.mem_filter.mp there).1
          obtain ⟨later, run, once, covers⟩ := @ih (events.filter (·.id ∉ message.details.ids))
            ⟨fun other there => admissible.times other (kept other there),
              fun other there => admissible.fits other (kept other there)⟩ (by omega)
          refine ⟨message.details.ids :: later, ?_, ?_, ?_⟩
          · have round : injections (rounds + 1) events
                = (rootInboxMessage events none).bind fun message =>
                    (injections rounds (events.filter (·.id ∉ message.details.ids))).bind
                      fun later => some (message.details.ids :: later) := by
              rw [← all]
              rfl
            rw [round, built, Option.bind_some, run, Option.bind_some]
          · rw [List.flatten_cons, List.nodup_append]
            refine ⟨?_, once, ?_⟩
            · rw [injection.ids]
              have both := injection.once
              rw [List.map_append, List.nodup_append] at both
              exact both.1
            · rintro id now other then_ rfl
              obtain ⟨event, there, rfl⟩ := List.mem_map.mp ((covers id).mp then_)
              have away := (List.mem_filter.mp there).2
              simp [now] at away
          · intro id
            rw [List.flatten_cons, List.mem_append, covers]
            constructor
            · rintro (now | then_)
              · rw [injection.ids] at now
                refine (injection.covers id).mp ?_
                rw [List.map_append]
                exact List.mem_append_left _ now
              · obtain ⟨other, there, rfl⟩ := List.mem_map.mp then_
                exact List.mem_map_of_mem (kept other there)
            · intro there
              by_cases now : id ∈ message.details.ids
              · exact .inl now
              · obtain ⟨other, among, rfl⟩ := List.mem_map.mp there
                exact .inr (List.mem_map_of_mem (List.mem_filter.mpr ⟨among, by simpa using now⟩))

/-- For events whose times can be rendered, with actions that each fit the limit: every message of
some of them is an injection, and the rounds end and name each id once.
-/
theorem root_inbox_shows_once (events : List MeshEvent) (admissible : Admissible events)
    : (∀ input, (∀ event ∈ input, event ∈ events) →
          ∃ message shown overflow, rootInboxMessage input none = some message
            ∧ Injection input message shown overflow)
        ∧ ∃ named, injections events.length events = some named ∧ named.flatten.Nodup
          ∧ ∀ id, id ∈ named.flatten ↔ id ∈ events.map MeshEvent.id := by
  refine ⟨?_, injections_once admissible le_rfl⟩
  intro input among
  exact rootInboxMessage_injection
    ⟨fun event member => admissible.times event (among event member),
      fun event member => admissible.fits event (among event member)⟩

def sameDelivery (id : JsString) (sequence : Int) : MeshEvent where
  id
  sequence
  dedupeKey := none
  topic := lit "work"
  kind := lit "info"
  sender := { id := lit "session:s", name := lit "s" }
  text := some (lit "text")
  data := some (.object [(lit "deliveryId", .string (lit "d"))])
  createdAt := 0

theorem root_inbox_shows_once_two
    : ∃ named, injections 2 [sameDelivery (lit "a") 1, sameDelivery (lit "b") 2] = some named
        ∧ named.flatten.Nodup
        ∧ ∀ id, id ∈ named.flatten
          ↔ id ∈ [sameDelivery (lit "a") 1, sameDelivery (lit "b") 2].map MeshEvent.id := by
  refine (root_inbox_shows_once [sameDelivery (lit "a") 1, sameDelivery (lit "b") 2] ?_).2
  refine ⟨by decide +kernel, ?_⟩
  intro event member action
  have plain : isAction event = false := by
    have all : ∀ event ∈ [sameDelivery (lit "a") 1, sameDelivery (lit "b") 2],
        isAction event = false := by decide
    exact all event member
  rw [plain] at action
  cases action

def nineDeliveries : List MeshEvent :=
  (List.range 9).map fun i => sameDelivery (Json.digits i) i

theorem mem_eventReceipts_nine (member : event ∈ nineDeliveries)
    : receipt (lit "session:s") (lit "delivery") (lit "d") ∈ eventReceipts event := by
  obtain ⟨i, -, rfl⟩ := List.mem_map.mp member
  have identity : deliveryIdentity (sameDelivery (Json.digits i) i)
      = some { kind := lit "delivery", value := lit "d" } := rfl
  have topic : (sameDelivery (Json.digits i) i).topic ≠ lit "fabric.control.command" := by
    change lit "work" ≠ _
    decide
  unfold eventReceipts
  rw [if_neg topic, workReceipts, identity]
  exact List.mem_append_right _ (List.mem_append_left _ (List.mem_singleton.mpr rfl))

theorem root_inbox_receipt_shared
    : (∃ message, rootInboxMessage nineDeliveries none = some message
          ∧ ∃ event ∈ nineDeliveries, event.id ∉ message.details.ids
            ∧ ∃ receipt ∈ eventReceipts event, receipt ∈ message.details.receipts)
        ∧ (rootInboxMessage
            [{ sameDelivery (lit "a") 1 with createdAt := 8640000000000001 }] none).isNone = true := by
  refine ⟨?_, by decide +kernel⟩
  have times : ∀ event ∈ nineDeliveries, DateHolds event.createdAt := by
    intro event member
    obtain ⟨i, -, rfl⟩ := List.mem_map.mp member
    exact ⟨by norm_num [sameDelivery], by norm_num [sameDelivery]⟩
  have plain : ∀ event ∈ nineDeliveries, isAction event = false := by
    intro event member
    obtain ⟨i, -, rfl⟩ := List.mem_map.mp member
    rfl
  obtain ⟨message, shown, overflow, built, injection⟩ := rootInboxMessage_injection
    ⟨times, fun event member action => absurd ((plain event member).symm.trans action) (by simp)⟩
  have nine : (shown ++ overflow).length = 9 := by
    have distinct : (nineDeliveries.map MeshEvent.id).Nodup := by decide +kernel
    have perm := (List.perm_ext_iff_of_nodup injection.once distinct).mpr injection.covers
    have lengths := perm.length_eq
    rwa [List.length_map, List.length_map] at lengths
  -- The ninth row would be past the limit.
  have some : overflow ≠ [] := by
    rintro rfl
    rw [List.append_nil] at nine
    obtain ⟨last, rest, tail⟩ : ∃ last rest, shown.drop 8 = last :: rest :=
      List.exists_cons_of_ne_nil (by
        intro none
        have lengths := congrArg List.length none
        rw [List.length_drop, nine] at lengths
        cases lengths)
    have split : shown = shown.take 8 ++ last :: rest := by
      rw [← tail, List.take_append_drop]
    have inside : last ∈ nineDeliveries :=
      injection.among last (List.mem_append_left _ (split ▸ by simp))
    have limit := (injection.limits _ last rest split (plain last inside)).1
    rw [List.length_take, nine] at limit
    exact absurd limit (by decide)
  obtain ⟨event, withheld⟩ := List.exists_mem_of_ne_nil overflow some
  have own : event ∈ nineDeliveries := injection.among event (List.mem_append_right _ withheld)
  obtain ⟨first, member⟩ := List.exists_mem_of_ne_nil shown
    (injection.some (List.ne_nil_of_mem own))
  refine ⟨message, built, event, own, injection.withheld event withheld, _,
    mem_eventReceipts_nine own, ?_⟩
  rw [injection.receipts]
  exact List.mem_flatMap.mpr ⟨first, member,
    mem_eventReceipts_nine (injection.among first (List.mem_append_left _ member))⟩

end PiFabric.RootInbox
