import PiFabric.Timeline.Sessions

/-! What the rejections report deleted: no more than the versions of their keys, and for each key
in their order.
-/

namespace PiFabric.Timeline

open JsString
open Interleaving (Prog)

variable {ι : Type} {w w' : World ι} {thread : ι} {maxReadEvents : Nat} {working : Bool} {key : Key}

def Payload.deleted : Payload → List (Key × Nat)
  | .rejected _ deleted => deleted
  | _ => []

/-- Every report is of a version the key had, and later reports of a key are of later versions. -/
structure Reports (w : World ι) : Prop where
  bound : ∀ published ∈ w.log, ∀ report ∈ published.event.payload.deleted,
    report.2 ≤ w.store.version report.1
  ordered : w.log.Pairwise fun first second => ∀ report ∈ first.event.payload.deleted,
    ∀ later ∈ second.event.payload.deleted, report.1 = later.1 → report.2 < later.2

/-- The tombstone of a deleted key is reported by an event that is read. -/
def Remembered (maxReadEvents : Nat) (w : World ι) (key : Key) : Prop :=
  w.store.rows key = none → w.store.version key = 0
    ∨ ∃ event ∈ w.stateEvents maxReadEvents, deletedIn key event = some (w.store.version key)

variable {version : Nat}

theorem mem_of_deletedIn {event : Event} (h : deletedIn key event = some version)
    : (key, version) ∈ event.payload.deleted := by
  unfold deletedIn at h
  split at h
  · next transitionId deleted same =>
      obtain ⟨⟨found, at_⟩, isFound, rfl⟩ := Option.map_eq_some_iff.mp h
      have named : found = key := by simpa using List.find?_some isFound
      rw [same]
      exact named ▸ List.mem_of_find?_eq_some isFound
  · exact absurd h (by simp)

theorem deletedIn_of_mem {event : Event} (distinct : (event.payload.deleted.map (·.1)).Nodup)
    (h : (key, version) ∈ event.payload.deleted)
    : deletedIn key event = some version := by
  unfold deletedIn
  cases same : event.payload with
  | rejected transitionId deleted =>
      rw [same] at h distinct
      simp only [Payload.deleted] at h distinct
      cases found : deleted.find? fun item => item.1 = key with
      | none => exact absurd (List.find?_eq_none.mp found _ h) (by simp)
      | some item =>
          have named : item.1 = key := by simpa using List.find?_some found
          have one := List.inj_on_of_nodup_map distinct (List.mem_of_find?_eq_some found) h named
          simp [found, one]
  | _ => exact absurd h (by simp [same, Payload.deleted])

theorem lastDeletedVersion_eq {events : List Event}
    (ordered : events.Pairwise fun first second => ∀ report ∈ first.payload.deleted,
      ∀ later ∈ second.payload.deleted, report.1 = later.1 → report.2 < later.2)
    (bound : ∀ event ∈ events, ∀ found, deletedIn key event = some found → found ≤ version)
    (known : version = 0 ∨ ∃ event ∈ events, deletedIn key event = some version)
    : lastDeletedVersion key events = version := by
  induction events using List.reverseRecOn with
  | nil =>
      rcases known with rfl | ⟨event, member, -⟩
      · rfl
      · exact absurd member (by simp)
  | append_singleton before last ih =>
      have newest : lastDeletedVersion key (before ++ [last])
          = (deletedIn key last).getD (lastDeletedVersion key before) := by
        simp only [lastDeletedVersion, List.reverse_append, List.reverse_cons, List.reverse_nil,
          List.nil_append, List.singleton_append, List.findSome?_cons]
        cases deletedIn key last <;> rfl
      rw [newest]
      obtain ⟨earlier, -, across⟩ := List.pairwise_append.mp ordered
      cases found : deletedIn key last with
      | none =>
          refine ih earlier (fun event member => bound event (by simp [member])) ?_
          rcases known with zero | ⟨event, member, reported⟩
          · exact .inl zero
          · rcases List.mem_append.mp member with inside | single
            · exact .inr ⟨event, inside, reported⟩
            · rw [List.mem_singleton.mp single, found] at reported
              exact absurd reported (by simp)
      | some last_ =>
          have upper := bound last (by simp) _ found
          rcases known with zero | ⟨event, member, reported⟩
          · simp only [Option.getD_some]
            omega
          · rcases List.mem_append.mp member with inside | single
            · have rises := across event inside last (by simp) _ (mem_of_deletedIn reported) _
                (mem_of_deletedIn found) rfl
              simp only at rises
              omega
            · rw [List.mem_singleton.mp single, found] at reported
              simpa using reported

theorem Reports.lastDeletedVersion (h : Reports w) (remembered : Remembered maxReadEvents w key)
    (absent : w.store.rows key = none)
    : lastDeletedVersion key (w.stateEvents maxReadEvents) = w.store.version key := by
  have inLog {event : Event} (member : event ∈ w.stateEvents maxReadEvents)
      : ∃ published ∈ w.log, published.event = event :=
    List.mem_map.mp (List.mem_of_mem_drop member)
  refine lastDeletedVersion_eq ?_ ?_ (remembered absent)
  · exact (List.pairwise_map.mpr h.ordered).sublist (List.drop_sublist ..)
  · intro event member found reported
    obtain ⟨published, published_, rfl⟩ := inLog member
    exact h.bound published published_ _ (mem_of_deletedIn reported)

theorem reports_emptyWorld : Reports (emptyWorld ι) where
  bound := by simp [emptyWorld]
  ordered := List.Pairwise.nil

theorem Reports.of_versions (h : Reports w) (log : w'.log = w.log)
    (versions : ∀ key, w.store.version key ≤ w'.store.version key)
    : Reports w' where
  bound := fun published member report inside =>
    (h.bound published (log ▸ member) report inside).trans (versions _)
  ordered := log ▸ h.ordered

/-- A report of versions the keys have, above every earlier one, keeps the reports. -/
theorem Reports.append {author : ι} {choice : Choice} {payload : Payload}
    {evidence : Option Evidence} (h : Reports w)
    (bound : ∀ report ∈ payload.deleted, report.2 ≤ w.store.version report.1)
    (above : ∀ published ∈ w.log, ∀ report ∈ published.event.payload.deleted,
      ∀ later ∈ payload.deleted, report.1 = later.1 → report.2 < later.2)
    : Reports (w.append author choice payload evidence) where
  bound := by
    intro published member report inside
    rcases mem_append.mp member with before | rfl
    · exact h.bound published before report inside
    · exact bound report inside
  ordered := by
    refine List.pairwise_append.mpr ⟨h.ordered, List.pairwise_singleton .., ?_⟩
    intro published member last single
    rw [List.mem_singleton.mp single]
    exact above published member

theorem Reports.append_quiet {author : ι} {choice : Choice} {payload : Payload}
    {evidence : Option Evidence} (h : Reports w) (quiet : payload.deleted = [])
    : Reports (w.append author choice payload evidence) :=
  h.append (by simp [quiet]) (by simp [quiet])

def Call.reports : Call → List (Key × Nat)
  | .publish payload => payload.deleted
  | _ => []


/-- A store whose versions are its keys', and the reports of its deletions. -/
structure Kept (w : World ι) : Prop where
  store : w.store.Sound
  reports : Reports w

theorem Kept.of_same (h : Kept w) (store : w'.store = w.store) (log : w'.log = w.log) : Kept w' :=
  ⟨store ▸ h.store, h.reports.of_versions log fun _ => store ▸ le_rfl⟩

theorem Kept.write (h : Kept w) (value : Option Value) : Kept (w.write key value) :=
  ⟨h.store.write value, h.reports.of_versions rfl (h.store.extends_write value).version⟩

theorem Kept.call {call : Call} {reply : Reply call} (h : Kept w) (quiet : call.reports = [])
    (performed : Performs maxReadEvents thread w call reply w')
    : Kept w' := by
  cases call with
  | get key => exact (performs_get performed).1 ▸ h
  | reread =>
      rcases performs_reread performed with ⟨rfl, -⟩ | ⟨-, ⟨rfl, -⟩ | rfl⟩
      · exact h
      · exact h
      · exact h.of_same rfl rfl
  | read => exact (performs_read performed).1 ▸ h
  | put key value ifVersion =>
      rcases performs_put performed with ⟨rfl, -⟩ | ⟨rfl, -⟩
      · exact h.write _
      · exact h
  | advance input ifVersion =>
      rcases performs_advance performed with ⟨rfl, -⟩ | ⟨rfl, -⟩
      · exact (@Kept.write _ _ .current h (some (.head input.payload))).of_same rfl rfl
      · exact h
  | delete key ifVersion =>
      rcases performs_delete performed with ⟨rfl, -⟩ | ⟨rfl, -⟩
      · exact h.write _
      · exact h
  | publish payload =>
      rcases performs_publish performed with ⟨choice, -, rfl, -⟩ | ⟨rfl, -⟩
      · exact ⟨h.store, h.reports.append_quiet quiet⟩
      · exact h
  | certify data evidence =>
      rcases performs_certify performed with ⟨choice, -, rfl, -⟩ | ⟨rfl, -⟩
      · exact ⟨h.store, h.reports.append_quiet rfl⟩
      · exact h
  | now => exact performs_outside (show Call.now.Outside from trivial) performed ▸ h
  | measure file => exact performs_outside (show (Call.measure file).Outside from trivial) performed ▸ h
  | observe => exact performs_outside (show Call.observe.Outside from trivial) performed ▸ h
  | runCommand command =>
      exact performs_outside (show (Call.runCommand command).Outside from trivial) performed ▸ h

abbrev Quiet {α : Type} (program : Prog Call Reply α) : Prop :=
  program.Only fun call => call.reports = []

theorem quiet_send {call : Call} (quiet : call.reports = [])
    : Quiet (Prog.send call : Prog Call Reply (Reply call)) :=
  ⟨quiet, fun _ => trivial⟩

theorem quiet_pure {α : Type} {value : α} : Quiet (pure value : Program α).run :=
  trivial

theorem quiet_getHead : Quiet getHead.run := by
  refine Prog.Only.try_ (quiet_send rfl) fun entry => ?_
  split
  · exact quiet_pure
  · split
    · exact Prog.Only.try_ (quiet_send rfl) fun _ => quiet_pure
    · exact quiet_pure

theorem quiet_history {input : HistoryInput} : Quiet (history input).run :=
  Prog.Only.try_ (quiet_send rfl) fun _ => Prog.Only.try_ quiet_getHead fun _ => quiet_pure

theorem quiet_report : Quiet report.run :=
  Prog.Only.try_ quiet_getHead fun _ => Prog.Only.try_ quiet_history fun _ => quiet_pure

theorem quiet_labelTargets {includeArchived : Bool} {labels : List JsString}
    {merged : List TransitionRecord}
    : Quiet (labelTargets includeArchived labels merged).run := by
  induction labels generalizing merged with
  | nil => exact quiet_pure
  | cons label rest ih => exact Prog.Only.try_ quiet_history fun _ => ih

theorem quiet_runEvidence {commands : List (JsString × JsString)}
    : Quiet (runEvidence commands).run := by
  induction commands with
  | nil => exact quiet_pure
  | cons first rest ih =>
      exact Prog.Only.try_ (quiet_send rfl) fun _ => Prog.Only.try_ ih fun _ => quiet_pure

variable {input : VerifyInput}

theorem quiet_verifyTargets {head : Option Head}
    : Quiet (verifyTargets input head).run := by
  unfold verifyTargets
  split
  · exact Prog.Only.try_ quiet_labelTargets fun _ => quiet_pure
  · exact Prog.Only.try_ quiet_history fun _ => quiet_pure
  · exact quiet_pure

theorem quiet_gather : Quiet (gather input).run := by
  refine ⟨rfl, fun observed => ?_⟩
  refine Prog.Only.try_ quiet_getHead fun head => ?_
  refine Prog.Only.try_ quiet_verifyTargets fun targets => ?_
  exact Prog.Only.try_ quiet_runEvidence fun _ => quiet_pure

/-- A put of the head whose outcome is looked at. -/
theorem quiet_attempt {α β : Type} {program : Program α} {rest : Except Failure α → Program β}
    (quiet : Quiet program.run) (then_ : ∀ outcome, Quiet (rest outcome).run)
    : Quiet (Program.attempt program >>= rest).run :=
  Prog.Only.try_ (Prog.Only.bind quiet fun _ => trivial) then_

theorem quiet_persistCurrentCertificate {certificate : Certificate} {head : Head}
    : Quiet (persistCurrentCertificate certificate head).run := by
  refine Prog.Only.try_ (quiet_send rfl) fun current => ?_
  split
  · refine quiet_attempt (quiet_send rfl) fun outcome => ?_
    split
    · exact quiet_pure
    · split <;> trivial
  · exact quiet_pure

theorem quiet_revokeCurrentCertificate {head : Head}
    : Quiet (revokeCurrentCertificate head).run := by
  refine Prog.Only.try_ (quiet_send rfl) fun current => ?_
  split
  · split
    · refine quiet_attempt (quiet_send rfl) fun outcome => ?_
      split
      · exact quiet_pure
      · split <;> trivial
    · exact quiet_pure
  · exact quiet_pure

variable {verdicts : Verdicts} {resultDigest : JsString}

theorem quiet_publishViolation {pieces : List (List CertificationTarget)}
    : Quiet (publishViolation verdicts resultDigest pieces).run := by
  induction pieces with
  | nil => exact quiet_pure
  | cons piece rest ih => exact ⟨rfl, fun _ => Prog.Only.try_ (quiet_send rfl) fun _ => ih⟩

theorem quiet_recordViolation
    : Quiet (recordViolation verdicts resultDigest) := by
  have revokes : Quiet (revoke verdicts.evidence).run := by
    unfold revoke
    split
    · exact quiet_revokeCurrentCertificate
    · exact quiet_pure
  exact Prog.Only.bind revokes fun _ => Prog.Only.bind quiet_publishViolation fun _ => trivial

theorem quiet_publishCertified {ts : Nat} {pieces : List (List CertificationTarget)}
    {chosen : Option Event}
    : Quiet (publishCertified verdicts resultDigest ts pieces chosen).run := by
  induction pieces generalizing chosen with
  | nil => exact quiet_pure
  | cons piece rest ih => exact Prog.Only.try_ (quiet_send rfl) fun _ => ih

theorem quiet_certifyTargets
    : Quiet (certifyTargets verdicts resultDigest).run := by
  refine ⟨rfl, fun ts => ?_⟩
  refine Prog.Only.try_ quiet_publishCertified fun chosen => ?_
  refine Prog.Only.try_ quiet_getHead fun current => ?_
  split
  · trivial
  · split
    · split
      · exact quiet_persistCurrentCertificate
      · exact quiet_pure
    · exact quiet_pure

/-- A verification reports no deletion. -/
theorem quiet_verify : Quiet (verify input) := by
  have failed {verdicts : Verdicts} {failures : List VerificationFailure} {causes : List Failure}
      : Quiet (recordFailure verdicts failures causes) :=
    Prog.Only.bind quiet_recordViolation fun _ => trivial
  refine Prog.Only.bind quiet_gather fun gathered => ?_
  split
  · trivial
  · refine Prog.Only.map ?_
    unfold recordOutcome
    simp only
    split
    · refine Prog.Only.bind quiet_certifyTargets fun outcome => ?_
      split
      · trivial
      · exact failed
    · exact failed

end PiFabric.Timeline
