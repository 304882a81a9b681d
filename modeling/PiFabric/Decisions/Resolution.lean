import PiFabric.Foundation.Outcome
import PiFabric.Decisions.Store

/-! Every decision is resolved once, by a caller its record authorized, and climbs its chain one
holder at a time.
-/

namespace PiFabric.Decisions

open Outcome

structure Climbs (record : Record) (escalation : Escalation) : Prop where
  bounded : escalation.chain.length ≤ maxEscalationHops
  timeout : minEscalationHopMs ≤ escalation.hopTimeoutMs
  history : record.history.map HistoryEntry.holder = escalation.chain.take escalation.hop
  holder : escalation.chain[escalation.hop]? = some record.holder

/-- What every stored record says: an escalating one is at a hop of its chain, and no other has a
history.
-/
inductive WellFormed (record : Record) : Prop
  | climbing {escalation : Escalation} (escalates : record.onExpire = .escalate)
      (held : record.escalation = some escalation) (climbs : Climbs record escalation)
  | level (stays : record.onExpire ≠ .escalate) (none_ : record.escalation = none)
      (empty : record.history = [])

/-- What may become of a record: an open one keeps its chain, and its hop and history grow. -/
structure Follows (before after : Record) : Prop where
  opened : before.status = .opened
  onExpire : after.onExpire = before.onExpire
  chain : after.escalation.map Escalation.chain = before.escalation.map Escalation.chain
  hop : ∀ escalation escalation', before.escalation = some escalation →
    after.escalation = some escalation' → escalation.hop ≤ escalation'.hop
  history : before.history <+: after.history

variable {record : Record}

variable {escalation : Escalation}

theorem Climbs.hop_lt (h : Climbs record escalation)
    : escalation.hop < escalation.chain.length :=
  (List.getElem?_eq_some_iff.mp h.holder).1

theorem Climbs.stored (h : Climbs record escalation) (escalates : record.onExpire = .escalate)
    (held : record.escalation = some escalation)
    : decisionEscalation record = some escalation := by
  have bound := h.hop_lt
  have passes : (decide (0 < escalation.chain.length)
      && decide (escalation.chain.length ≤ maxEscalationHops)
      && decide (escalation.hop < escalation.chain.length)
      && decide (minEscalationHopMs ≤ escalation.hopTimeoutMs)) = true := by
    simp only [Bool.and_eq_true, decide_eq_true_eq]
    exact ⟨⟨⟨by omega, h.bounded⟩, bound⟩, h.timeout⟩
  rw [decisionEscalation, if_pos escalates, held, Option.filter_some, if_pos passes]

structure Reached (chain : List Holder) (position : Position) : Prop where
  history : position.history.map HistoryEntry.holder = chain.take position.hop
  holder : chain[position.hop]? = some position.holder

variable {now : Time}

/-- Elapsing keeps the place in the chain, by induction over the holders that are left. -/
theorem elapse_reached {chain : List Holder} {hopTimeoutMs : Time} {rest : List Holder}
    {position : Position} (h : Reached chain position) (left : rest = chain.drop (position.hop + 1))
    : Reached chain (elapse now hopTimeoutMs rest position)
      ∧ position.hop ≤ (elapse now hopTimeoutMs rest position).hop
      ∧ position.history <+: (elapse now hopTimeoutMs rest position).history := by
  induction rest generalizing position with
  | nil => exact ⟨h, le_rfl, List.prefix_rfl⟩
  | cons next rest ih =>
      unfold elapse
      split
      swap
      · exact ⟨h, le_rfl, List.prefix_rfl⟩
      have at_ : chain[position.hop + 1]? = some next := by
        rw [← List.head?_drop, ← left]
        rfl
      have stepped : Reached chain (position.expire next hopTimeoutMs) := by
        refine ⟨?_, at_⟩
        simp only [Position.expire, List.map_append, h.history, List.take_add_one, h.holder]
        rfl
      have tail : rest = chain.drop ((position.expire next hopTimeoutMs).hop + 1) := by
        have tails := congrArg List.tail left
        rwa [List.tail_drop] at tails
      obtain ⟨reached, hop, history⟩ := ih stepped tail
      exact ⟨reached, (Nat.le_succ _).trans hop, (List.prefix_append ..).trans history⟩

theorem applyDecisionDeadline_spec (h : WellFormed record)
    (passed : applyDecisionDeadline record now ≠ record)
    : WellFormed (applyDecisionDeadline record now)
      ∧ Follows record (applyDecisionDeadline record now) := by
  unfold applyDecisionDeadline at passed ⊢
  split at passed
  swap
  · exact absurd rfl passed
  next deadline opened due =>
  split at passed
  · exact absurd rfl passed
  next reached =>
  simp only [if_neg reached]
  cases h with
  | level stays none_ empty =>
      have flat : decisionEscalation record = none := by rw [decisionEscalation, if_neg stays]
      simp only [flat]
      refine ⟨.level stays none_ empty, opened, rfl, rfl, ?_, List.prefix_rfl⟩
      intro escalation escalation' before after
      exact absurd (none_.symm.trans before) (by simp)
  | @climbing escalation escalates held climbs =>
      rw [climbs.stored escalates held]
      simp only
      obtain ⟨placed, hop, history⟩ := @elapse_reached now escalation.chain escalation.hopTimeoutMs
        _ { hop := escalation.hop, holder := record.holder, deadline, history := record.history }
        ⟨climbs.history, climbs.holder⟩ rfl
      generalize elapse now escalation.hopTimeoutMs _ _ = position at placed hop history ⊢
      have climbs' : Climbs (atPosition record escalation position)
          { escalation with hop := position.hop } :=
        ⟨climbs.bounded, climbs.timeout, placed.history, placed.holder⟩
      have follows : Follows record (atPosition record escalation position) := by
        refine ⟨opened, rfl, by simp [atPosition, held], ?_, history⟩
        intro before after found found'
        obtain rfl := Option.some.inj (held.symm.trans found)
        obtain rfl := Option.some.inj found'
        exact hop
      split
      · exact ⟨.climbing escalates rfl climbs', follows⟩
      · exact ⟨.climbing escalates rfl ⟨climbs'.1, climbs'.2, climbs'.3, climbs'.4⟩,
          ⟨follows.1, follows.2, follows.3, follows.4, follows.5⟩⟩

variable {next : Record}

theorem escalated_spec {reason : Option JsString} {escalatedBy : JsString} (h : WellFormed record)
    (opened : record.status = .opened)
    (computed : escalated record reason escalatedBy now = .ok next)
    : WellFormed next ∧ Follows record next := by
  unfold escalated at computed
  cases h with
  | level stays none_ empty =>
      have flat : decisionEscalation record = none := by rw [decisionEscalation, if_neg stays]
      rw [flat] at computed
      exact absurd computed (by simp)
  | @climbing escalation escalates held climbs =>
      rw [climbs.stored escalates held] at computed
      simp only at computed
      split at computed
      · exact absurd computed (by simp)
      next holder rest left =>
      obtain rfl := Except.ok.inj computed
      have at_ : escalation.chain[escalation.hop + 1]? = some holder := by
        rw [← List.head?_drop, left]
        rfl
      refine ⟨.climbing escalates rfl ⟨climbs.bounded, climbs.timeout, ?_, at_⟩, opened, rfl, ?_, ?_,
        List.prefix_append ..⟩
      · simp only [List.map_append, climbs.history, List.take_add_one, climbs.holder]
        rfl
      · simp [held]
      · intro before after found found'
        obtain rfl := Option.some.inj (held.symm.trans found)
        obtain rfl := Option.some.inj found'
        exact Nat.le_succ _

theorem next_spec {change : Change} (h : WellFormed record) (opened : record.status = .opened)
    (computed : change.next record now = .ok next)
    : change.authorize record = true ∧ WellFormed next ∧ Follows record next := by
  obtain ⟨⟨⟩, authorized, computed⟩ := bind_eq_ok.mp computed
  have allowed : change.authorize record = true := by
    unfold ensure at authorized
    split at authorized
    · next passes => exact passes
    · exact absurd authorized (by simp)
  have resolves (status : Status) (answer : Option Answer)
      : WellFormed { record with status, answer } ∧ Follows record { record with status, answer } := by
    refine ⟨?_, opened, rfl, rfl, ?_, List.prefix_rfl⟩
    · cases h with
      | climbing escalates held climbs =>
          exact .climbing escalates held ⟨climbs.1, climbs.2, climbs.3, climbs.4⟩
      | level stays none_ empty => exact .level stays none_ empty
    · intro escalation escalation' found found'
      obtain rfl := Option.some.inj (found.symm.trans found')
      exact le_rfl
  refine ⟨allowed, ?_⟩
  cases change with
  | answer input answeredBy via authorize =>
      obtain ⟨given, -, computed⟩ := bind_eq_ok.mp computed
      obtain rfl := Except.ok.inj computed
      exact resolves ..
  | cancel answeredBy via authorize =>
      obtain rfl := Except.ok.inj computed
      exact resolves ..
  | escalate reason escalatedBy authorize => exact escalated_spec h opened computed

theorem ensure_eq_ok {passes : Bool} {error : DecisionError}
    : ensure passes error = .ok () ↔ passes = true := by
  cases passes <;> simp [ensure]

theorem chainValue_ok {given : Option (List JsString)} {holder : Holder} {chain : List Holder}
    (h : chainValue given holder = .ok chain)
    : chain.head? = some holder ∧ chain.length ≤ maxEscalationHops := by
  unfold chainValue at h
  cases given with
  | none =>
      obtain rfl := Except.ok.inj h
      cases holder <;> simp [defaultEscalationChain, maxEscalationHops]
  | some texts =>
      obtain ⟨⟨⟩, few, h⟩ := bind_eq_ok.mp h
      obtain ⟨holders, read, h⟩ := bind_eq_ok.mp h
      obtain ⟨-, -, h⟩ := bind_eq_ok.mp h
      obtain ⟨⟨⟩, starts, h⟩ := bind_eq_ok.mp h
      obtain rfl := Except.ok.inj h
      have few := ensure_eq_ok.mp few
      rw [Bool.and_eq_true, decide_eq_true_eq, decide_eq_true_eq] at few
      refine ⟨of_decide_eq_true (ensure_eq_ok.mp starts), ?_⟩
      rw [← (mapM_eq_ok.mp read).length_eq]
      exact few.2

/-- The chain of a birth begins at its holder. -/
theorem escalationValue_ok {input : EscalationInput} {holder : Holder}
    (h : escalationValue input holder = .ok escalation)
    : escalation.hop = 0 ∧ escalation.chain.head? = some holder
      ∧ escalation.chain.length ≤ maxEscalationHops
      ∧ minEscalationHopMs ≤ escalation.hopTimeoutMs := by
  obtain ⟨chain, read, h⟩ := bind_eq_ok.mp h
  obtain ⟨⟨⟩, range, h⟩ := bind_eq_ok.mp h
  obtain rfl := Except.ok.inj h
  obtain ⟨starts, few⟩ := chainValue_ok read
  have range := ensure_eq_ok.mp range
  rw [Bool.and_eq_true, decide_eq_true_eq, decide_eq_true_eq] at range
  refine ⟨rfl, starts, few, ?_⟩
  have whole : (1000 : ℤ) ≤ ⌊input.hopTimeoutMs.getD defaultEscalationHopMs⌋ :=
    Int.le_floor.mpr (by simpa [minEscalationHopMs] using range.1)
  show (1000 : ℚ) ≤ (⌊input.hopTimeoutMs.getD defaultEscalationHopMs⌋ : ℚ)
  exact_mod_cast whole

variable {id : JsString}

theorem buildDecisionRecord_ok {input : RaiseInput} {raisedBy : RaisedBy}
    (h : buildDecisionRecord input id raisedBy now = .ok record)
    : WellFormed record ∧ record.status = .opened := by
  obtain ⟨title, -, h⟩ := bind_eq_ok.mp h
  obtain ⟨body, -, h⟩ := bind_eq_ok.mp h
  obtain ⟨given, -, h⟩ := bind_eq_ok.mp h
  obtain ⟨options, -, h⟩ := bind_eq_ok.mp h
  obtain ⟨deadline, -, h⟩ := bind_eq_ok.mp h
  obtain ⟨holder, -, h⟩ := bind_eq_ok.mp h
  obtain ⟨escalation, climbs, h⟩ := bind_eq_ok.mp h
  obtain ⟨default, -, h⟩ := bind_eq_ok.mp h
  obtain ⟨-, -, h⟩ := bind_eq_ok.mp h
  obtain ⟨-, -, h⟩ := bind_eq_ok.mp h
  obtain rfl := Except.ok.inj h
  refine ⟨?_, rfl⟩
  unfold escalationOf at climbs
  split at climbs
  · next escalates =>
      obtain ⟨value, read, rfl⟩ := map_eq_ok.mp climbs
      obtain ⟨first, starts, few, timeout⟩ := escalationValue_ok read
      refine .climbing (by simp [escalates]) rfl ⟨few, timeout, ?_, ?_⟩
      · rw [first]
        rfl
      · rw [first, ← List.head?_eq_getElem?]
        exact starts
  · next stays =>
      split at climbs
      · exact absurd climbs (by simp)
      obtain rfl := Except.ok.inj climbs
      refine .level ?_ rfl rfl
      cases given : input.onExpire with
      | none => simp
      | some onExpire => simpa [given] using stays

/-- The key has moved past the version that was read. -/
def Moved (store : Cas.Store JsString Record) (read : Read) : Prop :=
  read.version < store.version read.id

/-- The record that `#expire` returned for an entry is the entry's own, or the entry is past. -/
def Collected (store : Cas.Store JsString Record) (entry : Read) (record : Record) : Prop :=
  Known store entry ∧ (record = entry.record ∨ Moved store entry)

/-- An entry whose deletion removes a resolved record, or fails. -/
def Deletable (store : Cas.Store JsString Record) (read : Read) : Prop :=
  Known store read ∧ (read.record.status ≠ .opened ∨ Moved store read)

def Born (record : Record) : Prop :=
  WellFormed record ∧ record.status = .opened

def Goal.Sound (store : Cas.Store JsString Record) : Goal → Prop
  | .read => True
  | .change _ => True
  | .scan birth left done => (∀ record, birth = some record → Born record)
      ∧ (∀ entry ∈ left, Known store entry)
      ∧ ∀ entry ∈ done, Collected store entry.1 entry.2

/-- What a call knows where it stands. -/
def Pc.Sound (store : Cas.Store JsString Record) : Pc → Prop
  | .idle => True
  | .expire goal entry current => goal.Sound store ∧ Known store entry ∧ Known store current
      ∧ current.id = entry.id ∧ (current = entry ∨ Moved store entry)
  | .reread goal entry => goal.Sound store ∧ Known store entry ∧ Moved store entry
  | .transition _ _ => True
  | .replace _ read => Known store read ∧ read.record.status = .opened
  | .prune birth left => Born birth ∧ ∀ read ∈ left, Deletable store read
  | .create birth => Born birth

section

variable {store store' : Cas.Store JsString Record}

variable {read : Read}

theorem Known.later (h : Known store read) (extended : store.Extends store')
    : Known store' read :=
  extended.log _ _ _ h

theorem Moved.later (h : Moved store read) (extended : store.Extends store')
    : Moved store' read :=
  lt_of_lt_of_le h (extended.version read.id)

theorem Collected.later {entry : Read} (h : Collected store entry record)
    (extended : store.Extends store')
    : Collected store' entry record :=
  ⟨h.1.later extended, h.2.imp_right fun moved => moved.later extended⟩

theorem Deletable.later (h : Deletable store read) (extended : store.Extends store')
    : Deletable store' read :=
  ⟨h.1.later extended, h.2.imp_right fun moved => moved.later extended⟩

theorem Goal.Sound.later {goal : Goal} (h : goal.Sound store) (extended : store.Extends store')
    : goal.Sound store' := by
  cases goal with
  | read => trivial
  | change change => trivial
  | scan birth left done =>
      exact ⟨h.1, fun entry inside => (h.2.1 entry inside).later extended,
        fun entry inside => (h.2.2 entry inside).later extended⟩

/-- What a call knows stays known while others write. -/
theorem Pc.Sound.later {pc : Pc} (h : pc.Sound store) (extended : store.Extends store')
    : pc.Sound store' := by
  cases pc with
  | idle => trivial
  | expire goal entry current =>
      obtain ⟨goal, entry, current, same, moved⟩ := h
      exact ⟨goal.later extended, entry.later extended, current.later extended, same,
        moved.imp_right fun moved => moved.later extended⟩
  | reread goal entry =>
      exact ⟨h.1.later extended, h.2.1.later extended, h.2.2.later extended⟩
  | transition change id => trivial
  | replace change read => exact ⟨h.1.later extended, h.2⟩
  | prune birth left => exact ⟨h.1, fun read inside => (h.2 read inside).later extended⟩
  | create birth => exact h

variable {now : Time}

variable {entries : List (Read × Record)}

theorem mem_pruned {excess : Int} (h : read ∈ pruned now excess entries)
    : ∃ record, (read, record) ∈ entries := by
  induction entries generalizing excess with
  | nil => exact absurd h (by simp [pruned])
  | cons entry rest ih =>
      unfold pruned at h
      split at h
      swap
      · exact absurd h (by simp)
      rcases List.mem_cons.mp h with rfl | inside
      · exact ⟨entry.2, List.mem_cons_self⟩
      · obtain ⟨record, found⟩ := ih inside
        exact ⟨record, List.mem_cons_of_mem _ found⟩

theorem mem_resolvedEntries {entry : Read × Record} (h : entry ∈ resolvedEntries entries)
    : entry ∈ entries ∧ entry.2.status ≠ .opened := by
  have inside := (List.perm_insertionSort _ _).mem_iff.mp h
  simpa using List.mem_filter.mp inside

theorem raising_sound {birth : Record} (born : Born birth)
    (collected : ∀ entry ∈ entries, Collected store entry.1 entry.2)
    : (raising now birth entries).Sound store := by
  unfold raising
  split
  · trivial
  refine ⟨born, ?_⟩
  intro read inside
  obtain ⟨record, listed⟩ := mem_pruned inside
  obtain ⟨member, resolved⟩ := mem_resolvedEntries listed
  obtain ⟨known, same | moved⟩ := collected _ member
  · exact ⟨known, .inl (same ▸ resolved)⟩
  · exact ⟨known, .inr moved⟩

theorem scanning_sound {birth : Option Record} {left : List Read} {done : List (Read × Record)}
    (h : (Goal.scan birth left done).Sound store)
    : (scanning now birth left done).Sound store := by
  obtain ⟨born, known, collected⟩ := h
  cases left with
  | cons entry rest =>
      have here := known entry List.mem_cons_self
      refine ⟨⟨born, ?_, collected⟩, here, here, rfl, .inl rfl⟩
      exact fun other inside => known other (List.mem_cons_of_mem _ inside)
  | nil =>
      cases birth with
      | none => trivial
      | some birth => exact raising_sound (born birth rfl) collected

/-- What follows `#expire` knows what `#expire` returned. -/
theorem resume_sound {goal : Goal} {entry result : Read} (h : goal.Sound store)
    (known : Known store result) (collected : Collected store entry result.record)
    : (goal.resume now entry result).Sound store := by
  cases goal with
  | read => trivial
  | change change =>
      unfold Goal.resume
      simp only
      split
      · next opened => exact ⟨known, opened⟩
      · trivial
  | scan birth left done =>
      refine scanning_sound ⟨h.1, h.2.1, ?_⟩
      intro other inside
      rcases List.mem_append.mp inside with before | last
      · exact h.2.2 other before
      · rw [List.mem_singleton.mp last]
        exact collected

end

variable {ι : Type} [DecidableEq ι] {w w' : World ι} {event : Event}

structure Sound (w : World ι) : Prop where
  store : w.store.Sound
  records : ∀ id version record, w.store.log id version = some record → WellFormed record
  calls : ∀ call, (w.calls call).Sound w.store

inductive Writes (w : World ι) : Event → Cas.Store JsString Record → Prop
  | nothing : Writes w .quiet w.store
  | expires {read : Read} {now : Time} (live : w.store.rows read.id = some read.record)
      (passed : applyDecisionDeadline read.record now ≠ read.record)
      : Writes w .quiet (w.store.write read.id (some (applyDecisionDeadline read.record now)))
  | changes {change : Change} {read : Read} {now : Time} {next : Record}
      (live : w.store.rows read.id = some read.record) (opened : read.record.status = .opened)
      (computed : change.next read.record now = .ok next)
      : Writes w (.changed change read next) (w.store.write read.id (some next))
  | prunes {read : Read} (live : w.store.rows read.id = some read.record)
      (resolved : read.record.status ≠ .opened)
      : Writes w (.pruned read) (w.store.write read.id none)
  | creates {birth : Record} (absent : w.store.version birth.id = 0) (born : Born birth)
      : Writes w .quiet (w.store.write birth.id (some birth))

omit [DecidableEq ι] in
/-- A compare-and-swap on what was read replaces it. -/
theorem Sound.live (h : Sound w) {read : Read} (known : Known w.store read)
    (accepted : w.store.accepts read.id (some read.version) = true)
    : w.store.rows read.id = some read.record :=
  h.store.live_of_version known (Cas.Store.version_of_accepts accepted)

omit [DecidableEq ι] in
theorem Sound.known_le (h : Sound w) {read : Read} (known : Known w.store read)
    : read.version ≤ w.store.version read.id :=
  (h.store.logged _ _ _ known).2

/-- Every step writes one of these, and its calls know what they need afterwards. -/
theorem Step.writes (step : Step w event w') (h : Sound w) : Writes w event w'.store := by
  cases step with
  | get idle known => exact .nothing
  | begin_ idle checked => exact .nothing
  | list idle known => exact .nothing
  | raise idle built known => exact .nothing
  | current at_ same => exact .nothing
  | @expire call goal entry current now store at_ passed written =>
      obtain ⟨-, -, known, -⟩ := (at_ ▸ h.calls call : Pc.Sound w.store (.expire ..))
      obtain ⟨accepted, rfl⟩ := Cas.Store.put_eq_some written
      exact .expires (h.live known accepted) passed
  | expireConflict at_ passed conflict => exact .nothing
  | reread at_ known same => exact .nothing
  | transition at_ known same => exact .nothing
  | @replace call change read now next store at_ computed written =>
      obtain ⟨known, opened⟩ := (at_ ▸ h.calls call : Pc.Sound w.store (.replace ..))
      obtain ⟨accepted, rfl⟩ := Cas.Store.put_eq_some written
      exact .changes (h.live known accepted) opened computed
  | replaceConflict at_ computed conflict => exact .nothing
  | @prune call birth read left store at_ deleted =>
      obtain ⟨-, deletable⟩ := (at_ ▸ h.calls call : Pc.Sound w.store (.prune ..))
      obtain ⟨known, resolved | moved⟩ := deletable read List.mem_cons_self
      · obtain ⟨accepted, rfl⟩ := Cas.Store.delete_eq_some deleted
        exact .prunes (h.live known accepted) resolved
      · obtain ⟨accepted, -⟩ := Cas.Store.delete_eq_some deleted
        exact absurd (Cas.Store.version_of_accepts accepted) (ne_of_gt moved)
  | keep at_ => exact .nothing
  | prunedAll at_ => exact .nothing
  | @create call birth store at_ written =>
      have born : Born birth := (at_ ▸ h.calls call : Pc.Sound w.store (.create birth))
      obtain ⟨accepted, rfl⟩ := Cas.Store.put_eq_some written
      exact .creates (Cas.Store.version_of_accepts accepted) born
  | stop => exact .nothing

omit [DecidableEq ι] in
theorem Writes.extends_ {store : Cas.Store JsString Record} (writes : Writes w event store)
    (h : Sound w)
    : store.Sound ∧ w.store.Extends store := by
  cases writes with
  | nothing => exact ⟨h.store, .refl _⟩
  | expires live passed => exact ⟨h.store.write _, h.store.extends_write _⟩
  | changes live opened computed => exact ⟨h.store.write _, h.store.extends_write _⟩
  | prunes live resolved => exact ⟨h.store.write _, h.store.extends_write _⟩
  | creates absent born => exact ⟨h.store.write _, h.store.extends_write _⟩

omit [DecidableEq ι] in
theorem Sound.wellFormed (h : Sound w) (live : w.store.rows id = some record)
    : WellFormed record :=
  h.records _ _ _ ((h.store.live id).symm.trans live)

omit [DecidableEq ι] in
theorem Writes.records {store : Cas.Store JsString Record} (writes : Writes w event store)
    (h : Sound w)
    : ∀ id version record, store.log id version = some record → WellFormed record := by
  have wrote {key : JsString} {value : Option Record}
      (formed : ∀ record, value = some record → WellFormed record) (id : JsString) (version : Nat)
      (record : Record) (found : (w.store.write key value).log id version = some record)
      : WellFormed record := by
    simp only [Cas.Store.write] at found
    split at found
    · exact formed record found
    · exact h.records _ _ _ found
  cases writes with
  | nothing => exact h.records
  | expires live passed =>
      refine wrote fun _ same => ?_
      rw [← Option.some.inj same]
      exact (applyDecisionDeadline_spec (h.wellFormed live) passed).1
  | changes live opened computed =>
      refine wrote fun _ same => ?_
      rw [← Option.some.inj same]
      exact (next_spec (h.wellFormed live) opened computed).2.1
  | prunes live resolved => exact wrote (by simp)
  | creates absent born =>
      refine wrote fun _ same => ?_
      rw [← Option.some.inj same]
      exact born.1

theorem Sound.goto (h : Sound w) {store : Cas.Store JsString Record} (sound : store.Sound)
    (extended : w.store.Extends store)
    (records : ∀ id version record, store.log id version = some record → WellFormed record)
    {call : ι} {pc : Pc} (known : pc.Sound store)
    : Sound ({ w with store }.goto call pc) := by
  refine ⟨sound, records, ?_⟩
  intro other
  by_cases same : other = call
  · subst same
    simpa [World.goto] using known
  · simpa [World.goto, Function.update_of_ne same] using (h.calls other).later extended

/-- A read of a deadline that lost its compare-and-swap is past. -/
theorem moved_of_conflict {store : Cas.Store JsString Record} {read : Read}
    (bound : read.version ≤ store.version read.id)
    (conflict : store.put read.id next (some read.version) = none)
    : Moved store read := by
  unfold Cas.Store.put at conflict
  split at conflict
  · exact absurd conflict (by simp)
  · next refused =>
      refine lt_of_le_of_ne bound ?_
      intro same
      exact refused (by simp [Cas.Store.accepts, same])

theorem Step.sound (step : Step w event w') (h : Sound w) : Sound w' := by
  have writes := step.writes h
  obtain ⟨sound, extended⟩ := writes.extends_ h
  have records := writes.records h
  have quiet {call : ι} {pc : Pc} (known : pc.Sound w.store) : Sound (w.goto call pc) :=
    h.goto h.store (.refl _) h.records known
  cases step with
  | get idle known => exact quiet ⟨trivial, known, known, rfl, .inl rfl⟩
  | begin_ idle checked => exact quiet trivial
  | list idle known => exact quiet (scanning_sound ⟨by simp, known, by simp⟩)
  | raise idle built known =>
      refine quiet (scanning_sound ⟨?_, known, by simp⟩)
      rintro _ same
      obtain rfl := Option.some.inj same
      exact buildDecisionRecord_ok built
  | @current call goal entry current now at_ same =>
      obtain ⟨sane, listed, known, -, moved⟩ :=
        (at_ ▸ h.calls call : Pc.Sound w.store (.expire ..))
      refine quiet (resume_sound sane known ⟨listed, ?_⟩)
      exact moved.imp_left (congrArg Read.record)
  | @expire call goal entry current now store at_ passed written =>
      obtain ⟨sane, listed, known, same, moved⟩ :=
        (at_ ▸ h.calls call : Pc.Sound w.store (.expire ..))
      obtain ⟨accepted, rfl⟩ := Cas.Store.put_eq_some written
      have current_ := Cas.Store.version_of_accepts accepted
      have past : Moved (w.store.write current.id
          (some (applyDecisionDeadline current.record now))) entry := by
        unfold Moved
        rw [← same]
        have rises := @Cas.Store.Sound.version_lt_write _ _ _ w.store current.id h.store
          (some (applyDecisionDeadline current.record now))
        rcases moved with rfl | moved
        · omega
        · unfold Moved at moved
          rw [← same] at moved
          omega
      refine h.goto sound extended records (resume_sound (sane.later extended) ?_
        ⟨listed.later extended, .inr past⟩)
      unfold Known
      rw [Cas.Store.version_write_self]
      exact Cas.Store.log_write_self _
  | @expireConflict call goal entry current now at_ passed conflict =>
      obtain ⟨sane, listed, known, -, moved⟩ :=
        (at_ ▸ h.calls call : Pc.Sound w.store (.expire ..))
      refine quiet ⟨sane, listed, ?_⟩
      rcases moved with rfl | moved
      · exact moved_of_conflict (h.known_le known) conflict
      · exact moved
  | @reread call goal entry read at_ known same =>
      obtain ⟨sane, listed, moved⟩ := (at_ ▸ h.calls call : Pc.Sound w.store (.reread ..))
      exact quiet ⟨sane, listed, known, same, .inr moved⟩
  | transition at_ known same => exact quiet ⟨trivial, known, known, rfl, .inl rfl⟩
  | replace at_ computed written => exact h.goto sound extended records trivial
  | replaceConflict at_ computed conflict => exact quiet trivial
  | @prune call birth read left store at_ deleted =>
      obtain ⟨born, deletable⟩ := (at_ ▸ h.calls call : Pc.Sound w.store (.prune ..))
      refine h.goto sound extended records ⟨born, ?_⟩
      exact fun other inside => (deletable other (List.mem_cons_of_mem _ inside)).later extended
  | @keep call birth read left at_ =>
      obtain ⟨born, deletable⟩ := (at_ ▸ h.calls call : Pc.Sound w.store (.prune ..))
      exact quiet ⟨born, fun other inside => deletable other (List.mem_cons_of_mem _ inside)⟩
  | @prunedAll call birth at_ =>
      have known := (at_ ▸ h.calls call : Pc.Sound w.store (.prune birth []))
      exact quiet known.1
  | create at_ written => exact h.goto sound extended records trivial
  | stop => exact quiet trivial

omit [DecidableEq ι] in
theorem sound_start : Sound (start : World ι) where
  store := Cas.Store.sound_empty
  records := by simp [start, Cas.empty]
  calls := fun _ => trivial

theorem sound_of_run (h : Sound w) (run : Run w w') : Sound w' := by
  induction run with
  | refl => exact h
  | tail _ step ih =>
      obtain ⟨event, step⟩ := step
      exact step.sound ih

/-- A decision that was resolved: its record stays until it is pruned, for good. -/
structure Settled (store : Cas.Store JsString Record) (id : JsString) (record : Record) : Prop where
  kept : store.rows id = some record ∨ store.rows id = none
  written : store.version id ≠ 0

omit [DecidableEq ι] in
theorem Writes.settled {store : Cas.Store JsString Record} (writes : Writes w event store)
    (resolved : record.status ≠ .opened) (h : Settled w.store id record)
    : Settled store id record := by
  have replaced (key : JsString) (value : Option Record)
      (here : key = id → value = none)
      : Settled (w.store.write key value) id record := by
    by_cases same : id = key
    · subst same
      refine ⟨.inr ((Cas.Store.rows_write_self _).trans (here rfl)), ?_⟩
      rw [Cas.Store.version_write_self]
      exact Cas.Store.issue_ne_zero _ _
    · refine ⟨?_, ?_⟩
      · rw [Cas.Store.rows_write_of_ne same]
        exact h.kept
      · rw [Cas.Store.version_write_of_ne same]
        exact h.written
  have opened_ne {other : Record} (live : w.store.rows id = some other)
      : other = record := by
    rcases h.kept with kept | gone
    · exact Option.some.inj (live.symm.trans kept)
    · exact absurd (live.symm.trans gone) (by simp)
  cases writes with
  | nothing => exact h
  | @expires read now live passed =>
      refine replaced _ _ fun same => ?_
      have own := opened_ne (same ▸ live)
      rw [own] at passed
      refine absurd ?_ passed
      unfold applyDecisionDeadline
      split
      · next opened _ => exact absurd opened resolved
      · rfl
  | changes live opened computed =>
      refine replaced _ _ fun same => ?_
      exact absurd (opened_ne (same ▸ live) ▸ opened) resolved
  | prunes live resolved => exact replaced _ _ fun _ => rfl
  | creates absent born =>
      refine replaced _ _ fun same => ?_
      exact absurd (same ▸ absent) h.written

/-- What one step does to the decisions. -/
structure Resolves (before : Cas.Store JsString Record) (event : Event)
    (after : Cas.Store JsString Record) : Prop where
  /-- A record is replaced only while it is open, and keeps what it had. -/
  follows : ∀ id record record', before.rows id = some record → after.rows id = some record' →
    record' = record ∨ Follows record record'
  /-- An answer, a cancellation and an escalation replace an open record that authorized them. -/
  changed : ∀ change read next, event = .changed change read next →
    before.rows read.id = some read.record ∧ read.record.status = .opened
      ∧ change.authorize read.record = true ∧ after.rows read.id = some next
  /-- Only resolved records are pruned. -/
  pruned : ∀ id record, before.rows id = some record → after.rows id = none →
    record.status ≠ .opened

omit [DecidableEq ι] in
theorem Writes.resolves {store : Cas.Store JsString Record} (writes : Writes w event store)
    (h : Sound w)
    : Resolves w.store event store := by
  have follows (key : JsString) (value : Option Record)
      (here : ∀ record record', w.store.rows key = some record → value = some record' →
        record' = record ∨ Follows record record')
      (id : JsString) (record record' : Record) (live : w.store.rows id = some record)
      (after : (w.store.write key value).rows id = some record')
      : record' = record ∨ Follows record record' := by
    by_cases same : id = key
    · subst same
      rw [Cas.Store.rows_write_self] at after
      exact here record record' live after
    · rw [Cas.Store.rows_write_of_ne same] at after
      exact .inl (Option.some.inj (after.symm.trans live))
  have stays (key : JsString) (value : Option Record)
      (here : ∀ record, w.store.rows key = some record → value = none → record.status ≠ .opened)
      (id : JsString) (record : Record) (live : w.store.rows id = some record)
      (after : (w.store.write key value).rows id = none)
      : record.status ≠ .opened := by
    by_cases same : id = key
    · subst same
      rw [Cas.Store.rows_write_self] at after
      exact here record live after
    · rw [Cas.Store.rows_write_of_ne same] at after
      exact absurd (live.symm.trans after) (by simp)
  cases writes with
  | nothing =>
      refine ⟨?_, by simp, ?_⟩
      · exact fun id record record' live after => .inl (Option.some.inj (after.symm.trans live))
      · exact fun id record live gone => absurd (live.symm.trans gone) (by simp)
  | expires live passed =>
      refine ⟨follows _ _ ?_, by simp, stays _ _ (by simp)⟩
      intro record record' found same
      obtain rfl := Option.some.inj (live.symm.trans found)
      rw [← Option.some.inj same]
      exact .inr (applyDecisionDeadline_spec (h.wellFormed live) passed).2
  | @changes change read now next live opened computed =>
      have spec := next_spec (h.wellFormed live) opened computed
      refine ⟨follows _ _ ?_, ?_, stays _ _ (by simp)⟩
      · intro record record' found same
        obtain rfl := Option.some.inj (live.symm.trans found)
        rw [← Option.some.inj same]
        exact .inr spec.2.2
      · intro change' read' next' same
        obtain ⟨rfl, rfl, rfl⟩ := Event.changed.inj same
        exact ⟨live, opened, spec.1, Cas.Store.rows_write_self _⟩
  | @prunes read live resolved =>
      refine ⟨follows _ _ (by simp), by simp, stays _ _ ?_⟩
      intro record found _
      obtain rfl := Option.some.inj (live.symm.trans found)
      exact resolved
  | @creates birth absent born =>
      -- a version of zero was never written, so there is nothing to replace
      have free : w.store.rows birth.id = none := by
        cases found : w.store.rows birth.id with
        | none => rfl
        | some record =>
            have logged := h.store.logged _ _ _ ((h.store.live _).symm.trans found)
            omega
      refine ⟨follows _ _ ?_, by simp, stays _ _ (by simp)⟩
      intro record record' found
      exact absurd (free.symm.trans found) (by simp)

/-- A resolved decision stays as it was resolved, until it is pruned, by induction over the steps.
-/
theorem settled_of_run (h : Sound w) (run : Run w w') (live : w.store.rows id = some record)
    (resolved : record.status ≠ .opened)
    : Settled w'.store id record := by
  have written : w.store.version id ≠ 0 := by
    have logged := h.store.logged _ _ _ ((h.store.live id).symm.trans live)
    omega
  suffices Sound w' ∧ Settled w'.store id record from this.2
  induction run with
  | refl => exact ⟨h, .inl live, written⟩
  | tail _ step ih =>
      obtain ⟨event, step⟩ := step
      exact ⟨step.sound ih.1, (step.writes ih.1).settled resolved ih.2⟩

/-- In every reachable world the records are at a hop of their chain with one history entry for
each hop taken, every step resolves as it should, and what is resolved stays so.
-/
theorem decisions_are_resolved_once (reachable : Reachable w)
    : (∀ id record, w.store.rows id = some record → WellFormed record)
      ∧ (∀ event w', Step w event w' → Resolves w.store event w'.store)
      ∧ ∀ later id record, Run w later → w.store.rows id = some record →
        record.status ≠ .opened → Settled later.store id record := by
  have sound := sound_of_run sound_start reachable
  refine ⟨fun id record live => sound.wellFormed live, ?_, ?_⟩
  · exact fun event w' step => (step.writes sound).resolves sound
  · exact fun later id record run live resolved => settled_of_run sound run live resolved

def exampleInput : RaiseInput where
  kind := none
  title := JsString.lit "Merge?"
  body := none
  options := none
  input := none
  holder := some (JsString.lit "root")
  deadline := none
  timeoutMs := none
  onExpire := some .escalate
  defaultOptionId := none
  escalation := none

def exampleRaisedBy : RaisedBy where
  participantId := JsString.lit "main"
  runId := none
  sessionId := none

/-- Held by the root for ten minutes, then by the user. -/
def exampleBirth : Record where
  id := JsString.lit "dec_1"
  kind := .question
  title := JsString.lit "Merge?"
  body := none
  options := none
  input := .text
  raisedBy := exampleRaisedBy
  holder := .root
  createdAt := 0
  deadline := some (0 + defaultEscalationHopMs)
  onExpire := .escalate
  defaultOptionId := none
  escalation := some { chain := [.root, .user], hop := 0, hopTimeoutMs := defaultEscalationHopMs
                       onFinal := .cancel }
  history := []
  status := .opened
  answer := none

theorem exampleBirth_built
    : buildDecisionRecord exampleInput (JsString.lit "dec_1") exampleRaisedBy 0
      = .ok exampleBirth := by
  decide +kernel

theorem exampleBirth_raised
    : ∃ w : World Unit, Reachable w ∧ w.store.rows exampleBirth.id = some exampleBirth := by
  let scanned := (start : World Unit).goto () (.prune exampleBirth [])
  have raised : Step start .quiet scanned :=
    @Step.raise Unit _ start () [] 0 _ _ _ exampleBirth rfl exampleBirth_built (by simp)
  have pruned := @Step.prunedAll Unit _ scanned () exampleBirth rfl
  have created := @Step.create Unit _ (scanned.goto () (.create exampleBirth)) () exampleBirth
    (Cas.Store.write Cas.empty exampleBirth.id (some exampleBirth)) rfl rfl
  refine ⟨_, ((Relation.ReflTransGen.single ⟨_, raised⟩).tail ⟨_, pruned⟩).tail ⟨_, created⟩, ?_⟩
  exact Cas.Store.rows_write_self _

/-- A raised decision is at the first hop of its chain. -/
theorem decisions_are_resolved_once_example
    : ∃ w : World Unit, w.store.rows exampleBirth.id = some exampleBirth
      ∧ WellFormed exampleBirth := by
  obtain ⟨w, reachable, live⟩ := exampleBirth_raised
  exact ⟨w, live, (decisions_are_resolved_once reachable).1 _ _ live⟩

end PiFabric.Decisions
