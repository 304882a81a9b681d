import PiFabric.Timeline.Rollback

/-! A rejected transition whose rollback went through changed nothing, and may be made again: a
store that works does not refuse it for a version, for as long as the reports of the keys that
were deleted are among the events it reads.
-/

namespace PiFabric.Timeline

open JsString
open Interleaving (Prog)

variable {ι : Type} {w w' : World ι} {thread : ι} {maxReadEvents : Nat} {working : Bool} {key : Key}

theorem ensures_operation {operation : Operation} (kept : Kept w)
    : Ensures maxReadEvents working thread (fun _ left => Kept left) operation.program w := by
  have quiet {program : Prog Call Reply Result} (h : Quiet program)
      : Ensures maxReadEvents working thread (fun _ left => Kept left) program w := by
    induction program generalizing w with
    | done value => exact kept
    | call request next ih =>
        intro reply left served
        exact ih reply (kept.call h.1 served.performs) (h.2 reply)
  cases operation with
  | transition relative input =>
      refine Prog.Ensures.map (Prog.Ensures.weaken (ensures_transitionOf kept) ?_)
      exact fun outcome left ended => ended.kept
  | verify input => exact quiet (Prog.Only.map quiet_verify)
  | getHead => exact quiet (Prog.Only.map quiet_getHead)
  | get => exact quiet (Prog.Only.map quiet_report)

theorem deleted_of_foreign {payload : Payload} (foreign : payload.foreign = true)
    : payload.deleted = [] := by
  cases payload <;> first | rfl | exact absurd foreign (by simp [Payload.foreign])

theorem Turn.kept (h : Turn maxReadEvents w w') (kept : Kept w) : Kept w' := by
  cases h with
  | operation silent ran => exact (ensures_operation kept).of_runs ran
  | event appends foreign =>
      exact ⟨kept.store, kept.reports.append_quiet (deleted_of_foreign foreign)⟩

theorem Session.kept (h : Session maxReadEvents w w') (kept : Kept w) : Kept w' := by
  induction h with
  | refl => exact kept
  | tail _ turn ih => exact turn.kept ih

theorem kept_emptyWorld : Kept (emptyWorld ι) :=
  ⟨Cas.Store.sound_empty, reports_emptyWorld⟩

/-- The proof of the head is settled, or its marker is among the events that are read. -/
def MarkerRead (maxReadEvents : Nat) (w : World ι) : Prop :=
  ∀ head, w.head = some head → head.commitProof = some committedProof
    ∨ ∃ event ∈ w.stateEvents maxReadEvents, event.payload = .committed head.transitionId

theorem mem_committedTransitionIds {events : List Event} {transitionId : JsString}
    (marker : ∃ event ∈ events, event.payload = .committed transitionId)
    (unrejected : ∀ event ∈ events, ∀ deleted, event.payload ≠ .rejected transitionId deleted)
    : transitionId ∈ committedTransitionIds events := by
  obtain ⟨event, member, named⟩ := marker
  refine List.mem_filter.mpr ⟨List.mem_filterMap.mpr ⟨event, member, by simp [named]⟩, ?_⟩
  simp only [Bool.not_eq_true', List.contains_eq_mem, decide_eq_false_iff_not, List.mem_filterMap,
    not_exists, not_and]
  intro found inside same
  split at same
  · next rejected deleted isRejected =>
      rw [Option.some.inj same] at isRejected
      exact unrejected found inside deleted isRejected
  · exact absurd same (by simp)

theorem of_readHead {head found : Head} {events : List Event} (h : readHead head events = some found)
    : found = head := by
  unfold readHead at h
  simp only at h
  split_ifs at h
  · exact (Option.some.inj h).symm
  · exact (Option.some.inj h).symm
  · split at h
    · exact (Option.some.inj h).symm
    · split at h
      · split at h
        · exact (Option.some.inj h).symm
        · exact absurd h (by simp)
      · exact (Option.some.inj h).symm

theorem head_of_headRead {head : Head} (h : headRead maxReadEvents w = some head)
    : w.head = some head := by
  obtain ⟨found, same, read⟩ := Option.bind_eq_some_iff.mp h
  exact (of_readHead read) ▸ same

/-- The head of a known world is durable, and names its proposal. -/
theorem Inv.soundHead (inv : Inv w) {head : Head} (found : w.head = some head)
    : SoundHead w head.version head.toHeadValue := by
  obtain ⟨⟨value, version⟩, read, same⟩ := Option.bind_eq_some_iff.mp found
  obtain ⟨logged, current⟩ := inv.store.read read
  obtain ⟨headValue, rfl, sound⟩ := inv.heads _ _ logged
  cases same
  exact sound

theorem headRead_of_markerRead (inv : Inv w) (marker : MarkerRead maxReadEvents w)
    : headRead maxReadEvents w = w.head := by
  cases found : w.head with
  | none => simp [headRead, found]
  | some head =>
      have sound := inv.soundHead found
      obtain ⟨published, member, sequence, isSequence, event⟩ := sound.proposal
      obtain ⟨-, positive, safe⟩ := inv.sized published member
      obtain ⟨status, proof, -⟩ := sound.proof
      rw [event] at positive safe
      have sequenced : hasValidSequence head = true := by
        simp [hasValidSequence, isSequence, safe, positive]
      have versioned : validVersion head = true := by simp [validVersion, proof]
      have read : readHead head (w.stateEvents maxReadEvents) = some head := by
        rcases marker head found with settled | marked
        · simp [readHead, sound.protocol, headReadable, sequenced, versioned, proofIs, settled,
            committedProof]
        · have inLog {event : Event} (member : event ∈ w.stateEvents maxReadEvents)
              : ∃ published ∈ w.log, published.event = event :=
            List.mem_map.mp (List.mem_of_mem_drop member)
          have isMarked : w.Marked head.transitionId := by
            obtain ⟨event, member, named⟩ := marked
            obtain ⟨published, inside, rfl⟩ := inLog member
            exact ⟨published, inside, named⟩
          have among := mem_committedTransitionIds marked fun event member deleted rejected => by
            obtain ⟨published, inside, rfl⟩ := inLog member
            exact inv.exclusive _ isMarked ⟨published, inside, deleted, rejected⟩
          cases status with
          | committed =>
              simp [readHead, sound.protocol, headReadable, sequenced, versioned, proofIs, proof]
          | pending =>
              simp [readHead, sound.protocol, headReadable, sequenced, versioned, proofIs, proof,
                needsEvents, among]
      simp [headRead, found, read]

theorem headReads_of_markerRead (inv : Inv w) (marker : MarkerRead maxReadEvents w)
    : HeadReads maxReadEvents w := by
  intro live
  rw [headRead_of_markerRead inv marker]
  obtain ⟨entry, found⟩ := Option.isSome_iff_exists.mp live
  obtain ⟨logged, -⟩ := inv.store.read found
  obtain ⟨head, same, -⟩ := inv.heads _ _ logged
  obtain ⟨value, version⟩ := entry
  cases same
  simp [World.head, found, toHead]

/-- The head that a world holds, without its version, is what its row says. -/
theorem head_value_congr (rows : w'.store.rows .current = w.store.rows .current)
    : w'.head.map (·.toHeadValue) = w.head.map (·.toHeadValue) := by
  simp only [World.head, Cas.Store.get, rows]
  cases w.store.rows .current with
  | none => rfl
  | some value => cases value <;> rfl

theorem headRead_congr (inv' : Inv w') (reads : HeadReads maxReadEvents w)
    (rows : w'.store.rows .current = w.store.rows .current)
    (marker : MarkerRead maxReadEvents w')
    : (headRead maxReadEvents w').map (·.toHeadValue)
      = (headRead maxReadEvents w).map (·.toHeadValue) := by
  rw [headRead_of_markerRead inv' marker, head_value_congr rows]
  cases read : headRead maxReadEvents w with
  | some head => rw [head_of_headRead read]
  | none =>
      cases found : w.head with
      | none => rfl
      | some head =>
          obtain ⟨entry, isRead, -⟩ := Option.bind_eq_some_iff.mp found
          simpa [read] using reads (by simp [isRead])

theorem getHead_of_runs {outcome : Option Head}
    (ran : getHead.run.Runs (Serves maxReadEvents working) thread w (.ok outcome) w')
    : outcome = headRead maxReadEvents w := by
  obtain ⟨-, same | ⟨failure, none_, -⟩⟩ := ensures_getHead.of_runs ran
  · exact Except.ok.inj same
  · exact absurd none_ (by simp)

theorem mem_stateEvents_of_late {published : Published ι}
    (late : published ∈ w'.log.drop w.log.length)
    (few : w'.log.length ≤ w.log.length + maxReadEvents)
    : published.event ∈ w'.stateEvents maxReadEvents := by
  have longer : w'.events.length = w'.log.length := List.length_map _
  have inside : published.event ∈ (w'.log.drop w.log.length).map (·.event) :=
    List.mem_map_of_mem late
  rw [List.map_drop] at inside
  have least : w'.events.length - maxReadEvents ≤ w.log.length := by omega
  obtain ⟨more, same⟩ := Nat.exists_eq_add_of_le least
  rw [same, ← List.drop_drop] at inside
  exact List.mem_of_mem_drop inside

theorem knownVersion_of_remembered (reports : Reports w) (remembered : Remembered maxReadEvents w key)
    : knownVersion maxReadEvents w key = w.store.version key := by
  cases found : w.store.rows key with
  | some value => simp [knownVersion, Cas.Store.get, found]
  | none =>
      simp only [knownVersion, Cas.Store.get, found, Option.map_none]
      exact reports.lastDeletedVersion remembered found

/-- The keys a rejected transition deleted again are remembered until too many events follow. -/
theorem Rejection.remembered {last : World ι} (h : Rejection w.store w w')
    (store : last.store = w'.store) (log : w'.log <+: last.log)
    (few : last.log.length ≤ w.log.length + maxReadEvents) (gone : w.store.rows key = none)
    (moved : w'.store.version key ≠ w.store.version key)
    : Remembered maxReadEvents last key := by
  intro _
  obtain ⟨published, late, reported⟩ := h.reported key gone moved
  refine .inr ⟨published.event, mem_stateEvents_of_late ?_ few, store ▸ reported⟩
  obtain ⟨more, same⟩ := log
  have within : w.log.length ≤ w'.log.length := by
    by_contra beyond
    rw [List.drop_eq_nil_of_le (by omega)] at late
    exact absurd late (by simp)
  rw [← same, List.drop_append_of_le_length within]
  exact List.mem_append_left _ late

/-- A transition that failed before its marker, and whose rollback and report went through. -/
def TransitionError.RolledBack : TransitionError → Prop
  | .refused _ => True
  | .proofPending _ => False
  | .rejected _ errors reporting => errors = [] ∧ reporting = none

/-- A transition that fails before its marker, on a store that a session has reached and that
forgets no tombstone, leaves every row what it was, and the head that is read as long as its proof
is settled or its marker is read. The keys it deleted again are remembered until more events are
published than are read. Whenever its keys are remembered and the head is read, the same transition
is made, or refused for what it asks.
-/
theorem rejected_transition_may_be_retried {relative : JsString → JsString}
    {input : TransitionInput} {error : TransitionError}
    (reached : Session maxReadEvents (emptyWorld ι) w) (silent : Publishes w thread [])
    (ran : (transitionOf relative input).Runs (Serves maxReadEvents false) thread w
      (.error error) w')
    (rolledBack : error.RolledBack)
    : (∀ key, w'.store.rows key = w.store.rows key)
      ∧ (MarkerRead maxReadEvents w' → ∀ reader before after left left',
        getHead.run.Runs (Serves maxReadEvents true) reader w (.ok before) left →
        getHead.run.Runs (Serves maxReadEvents true) reader w' (.ok after) left' →
          after.map (·.toHeadValue) = before.map (·.toHeadValue))
      ∧ (∀ last, Events w' last → last.log.length ≤ w.log.length + maxReadEvents →
        ∀ key, w.store.rows key = none → w'.store.version key ≠ w.store.version key →
          Remembered maxReadEvents last key)
      ∧ ∀ last, Session maxReadEvents w' last → MarkerRead maxReadEvents last →
        (∀ file ∈ filesOf relative input, Remembered maxReadEvents last (.complexity file)) →
        ∀ author outcome final, (transitionOf relative input).Runs (Serves maxReadEvents true)
          author last outcome final → Accepted outcome := by
  have inv : Inv w := reached.inv inv_emptyWorld
  have inv' : Inv w' := inv_of_runs inv (sound_transitionOf inv silent) ran
  have ended := (ensures_transitionOf (reached.kept kept_emptyWorld)).of_runs ran
  have retried : ∀ last, Session maxReadEvents w' last → MarkerRead maxReadEvents last →
      (∀ file ∈ filesOf relative input, Remembered maxReadEvents last (.complexity file)) →
      ∀ author outcome final, (transitionOf relative input).Runs (Serves maxReadEvents true)
        author last outcome final → Accepted outcome := by
    intro last session marker remembered author outcome final again
    have kept := session.kept ended.kept
    have reads := headReads_of_markerRead (session.inv inv') marker
    refine ((ensures_transitionOf kept).of_runs again).accepted rfl ⟨reads, fun file isFile => ?_⟩
    exact knownVersion_of_remembered kept.reports (remembered file isFile)
  cases error with
  | refused failure =>
      obtain rfl := ended.refused failure rfl
      refine ⟨fun _ => rfl, fun _ reader before after left left' first second => ?_,
        fun _ _ _ _ _ moved => absurd rfl moved, retried⟩
      rw [getHead_of_runs first, getHead_of_runs second]
  | proofPending failure => exact absurd rolledBack id
  | rejected cause errors reporting =>
      obtain ⟨rfl, rfl⟩ := rolledBack
      obtain ⟨rejection, reads⟩ := ended.rejected cause rfl
      refine ⟨rejection.rows, fun marker reader before after left left' first second => ?_,
        fun last events few key gone moved => ?_, retried⟩
      · rw [getHead_of_runs first, getHead_of_runs second]
        exact headRead_congr inv' reads (rejection.rows _) marker
      · exact rejection.remembered events.store events.log few gone moved

def measuredTransition : TransitionInput where
  label := lit "first"
  toLabel := lit "y"
  complexity := some [lit "a.ts"]

/-- Calls of a mesh that forgets no tombstone, as the choices decide them. -/
def serve (maxReadEvents : Nat) (working : Bool) (thread : ι) (w : World ι) (call : Call)
    (choice : Choice) : Option (Reply call × World ι) :=
  if choice.evicted || working && choice.fails then none
  else w.perform maxReadEvents thread call choice

theorem serves_of_serve {call : Call} {choice : Choice} {reply : Reply call}
    (h : serve maxReadEvents working thread w call choice = some (reply, w'))
    : Serves maxReadEvents working thread w call reply w' := by
  unfold serve at h
  split at h
  · exact absurd h (by simp)
  · next kept =>
      simp only [Bool.or_eq_true, Bool.and_eq_true, not_or, not_and, Bool.not_eq_true] at kept
      exact ⟨choice, kept.1, kept.2, h⟩

def unadvanced : List Choice :=
  [{}, {}, {}, {}, { measured := some (lit "typescript", 1) }, {}, {},
    { id := idOf 0x61, sequence := 1 }, {}, {}, { fails := true }, {},
    { id := idOf 0x62, sequence := 2 }]

/-- The ledger row is put at the version it is looked up as. -/
def refusedAgain : List Choice :=
  [{}, {}, {}, {}, { measured := some (lit "typescript", 1) }, {}, {},
    { id := idOf 0x64, sequence := 4 }, {}, { id := idOf 0x65, sequence := 5 }]

def firstTry (maxReadEvents : Nat)
    : Option (Except TransitionError (Event × Option Head) × World Bool) :=
  (transitionOf id measuredTransition).play (serve maxReadEvents false false) (emptyWorld Bool)
    unadvanced

/-- The rejections of a store that failed, and of a version that was not the one expected. -/
def isRolledBack : Except TransitionError (Event × Option Head) → Bool
  | .error (.rejected (.storeFailed _) [] none) => true
  | _ => false

def isConflict (key : Key) (expected found : Nat)
    : Except TransitionError (Event × Option Head) → Bool
  | .error (.rejected cause [] none) => cause = .conflict key expected found
  | _ => false

theorem rejected_of_isRolledBack {outcome : Except TransitionError (Event × Option Head)}
    (h : isRolledBack outcome = true)
    : ∃ cause, outcome = .error (.rejected cause [] none) := by
  unfold isRolledBack at h
  split at h
  · exact ⟨_, rfl⟩
  · exact absurd h (by simp)

/-- A rejected first transition of an empty mesh may be made again. -/
theorem rejected_transition_may_be_retried_at_once
    : ∃ left : World Bool, (∀ key, left.store.rows key = none)
      ∧ ∀ last, Session 4 left last → MarkerRead 4 last →
        (∀ file ∈ filesOf id measuredTransition, Remembered 4 last (.complexity file)) →
        ∀ author outcome final, (transitionOf id measuredTransition).Runs (Serves 4 true)
          author last outcome final → Accepted outcome := by
  have played : (firstTry 4).any (fun tried => isRolledBack tried.1) = true := by decide +kernel
  obtain ⟨⟨outcome, left⟩, same, rejected⟩ := Option.any_eq_true _ _ |>.mp played
  obtain ⟨cause, rfl⟩ := rejected_of_isRolledBack rejected
  obtain ⟨rows, -, -, retried⟩ := rejected_transition_may_be_retried .refl
    (by simp [Publishes, emptyWorld]) (Prog.runs_of_play serves_of_serve same) ⟨rfl, rfl⟩
  exact ⟨left, rows, retried⟩

def otherEvent : Payload :=
  .violated ⟨[], none, [], [], 0, ⟨none, none, none, false⟩⟩

/-- On a mesh that reads one event, one event of another hides the report of the deleted ledger
row: the store works, and the transition is refused for the version of that row.
-/
theorem retry_is_refused_after_another_event
    : ∃ rejected retried : Except TransitionError (Event × Option Head),
      ∃ left last final : World Bool,
        (transitionOf id measuredTransition).Runs (Serves 1 false) false (emptyWorld Bool) rejected
          left
        ∧ isRolledBack rejected = true ∧ Events left last
        ∧ (transitionOf id measuredTransition).Runs (Serves 1 true) true last retried final
        ∧ isConflict (.complexity (lit "a.ts")) 0 2 retried = true := by
  have played : (firstTry 1).any (fun tried => isRolledBack tried.1
      && decide (tried.2.Appends { id := idOf 0x63, sequence := 3 })
      && ((transitionOf id measuredTransition).play (serve 1 true true)
        (tried.2.append true { id := idOf 0x63, sequence := 3 } otherEvent none) refusedAgain).any
        fun again => isConflict (.complexity (lit "a.ts")) 0 2 again.1) = true := by
    decide +kernel
  obtain ⟨⟨rejected, left⟩, same, checked⟩ := Option.any_eq_true _ _ |>.mp played
  simp only [Bool.and_eq_true, decide_eq_true_eq] at checked
  obtain ⟨⟨rolledBack, appends⟩, again⟩ := checked
  obtain ⟨⟨retried, final⟩, sameAgain, conflict⟩ := Option.any_eq_true _ _ |>.mp again
  exact ⟨rejected, retried, left, _, final, Prog.runs_of_play serves_of_serve same, rolledBack,
    .event (.none left) appends rfl, Prog.runs_of_play serves_of_serve sameAgain, conflict⟩

end PiFabric.Timeline
