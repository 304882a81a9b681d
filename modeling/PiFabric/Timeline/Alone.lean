import PiFabric.Timeline.Reports

/-! What the calls of a transition do on a mesh that forgets no tombstone and that nobody else
writes, and what its proposal is prepared from.
-/

namespace PiFabric.Timeline

open JsString
open Interleaving (Prog)

variable {ι : Type} {w w' : World ι} {thread : ι} {maxReadEvents : Nat} {working : Bool} {key : Key}

/-- Whatever the calls of a mesh that forgets nothing reply, a program ends as stated. -/
abbrev Ensures {α : Type} (maxReadEvents : Nat) (working : Bool) (thread : ι)
    (post : α → World ι → Prop) (program : Prog Call Reply α) (w : World ι) : Prop :=
  program.Ensures (Serves maxReadEvents working) thread post w

/-- A call of a store that does not work. -/
def Excused (working : Bool) (failure : Failure) : Prop :=
  working = false ∧ ∃ message, failure = .storeFailed message

/-- What is read, and left as it is. -/
def Reads {α : Type} (working : Bool) (w : World ι) (value : α) (outcome : Except Failure α)
    (w' : World ι) : Prop :=
  w' = w ∧ (outcome = .ok value ∨ ∃ failure, outcome = .error failure ∧ Excused working failure)

inductive PutOutcome (working : Bool) (w : World ι) (key : Key) (value : Value) (ifVersion : Nat)
    : Except Failure Entry → World ι → Prop
  | written (same : w.store.version key = ifVersion)
      : PutOutcome working w key value ifVersion (.ok (value, w.store.issue key))
          (w.write key (some value))
  | failed {failure : Failure} (excused : Excused working failure)
      : PutOutcome working w key value ifVersion (.error failure) w
  | conflict (apart : w.store.version key ≠ ifVersion)
      : PutOutcome working w key value ifVersion
          (.error (.conflict key ifVersion (w.store.version key))) w

inductive AdvanceOutcome (working : Bool) (w : World ι) (thread : ι) (input : AdvanceHeadInput)
    (ifVersion : Nat) : Except Failure Entry → World ι → Prop
  | written (same : w.store.version .current = ifVersion)
      : AdvanceOutcome working w thread input ifVersion
          (.ok (.head input.payload, w.store.issue .current)) (w.advanced thread input)
  | failed {failure : Failure} (excused : Excused working failure)
      : AdvanceOutcome working w thread input ifVersion (.error failure) w
  | conflict (apart : w.store.version .current ≠ ifVersion)
      : AdvanceOutcome working w thread input ifVersion
          (.error (.conflict .current ifVersion (w.store.version .current))) w

inductive DeleteOutcome (working : Bool) (w : World ι) (key : Key) (ifVersion : Nat)
    : Except Failure (Option Nat) → World ι → Prop
  | deleted (live : (w.store.rows key).isSome)
      : DeleteOutcome working w key ifVersion (.ok (some (w.store.issue key))) (w.write key none)
  | absent (gone : w.store.rows key = none) : DeleteOutcome working w key ifVersion (.ok none) w
  | failed {failure : Failure} : DeleteOutcome working w key ifVersion (.error failure) w

inductive PublishOutcome (working : Bool) (w : World ι) (thread : ι) (payload : Payload)
    : Except Failure Event → World ι → Prop
  | published {choice : Choice} (appends : w.Appends choice)
      : PublishOutcome working w thread payload (.ok ⟨choice.id, choice.sequence, payload⟩)
          (w.append thread choice payload none)
  | failed {failure : Failure} (excused : Excused working failure)
      : PublishOutcome working w thread payload (.error failure) w

theorem excused_of_fails {choice : Choice} {message : JsString} (fails : choice.fails = true)
    (works : working = true → choice.fails = false)
    : Excused working (.storeFailed message) := by
  cases working with
  | false => exact ⟨rfl, message, rfl⟩
  | true => exact absurd (fails.symm.trans (works rfl)) (by simp)

/-- A mesh that forgets no tombstone finds the version of the key. -/
theorem foundVersion_kept {choice : Choice} (kept : choice.evicted = false)
    : w.foundVersion key choice.evicted = w.store.version key := by
  simp [World.foundVersion, kept]

theorem ensures_get
    : Ensures maxReadEvents working thread (Reads working w (w.store.get key))
      (Program.get key).run w := by
  rintro reply left ⟨choice, -, works, performed⟩
  simp only [World.perform] at performed
  split at performed <;> cases performed
  · next fails => exact ⟨rfl, .inr ⟨_, rfl, excused_of_fails fails works⟩⟩
  · exact ⟨rfl, .inl rfl⟩

theorem ensures_read
    : Ensures maxReadEvents working thread (Reads working w (w.stateEvents maxReadEvents))
      Program.read.run w := by
  rintro reply left ⟨choice, -, works, performed⟩
  simp only [World.perform] at performed
  split at performed <;> cases performed
  · next fails => exact ⟨rfl, .inr ⟨_, rfl, excused_of_fails fails works⟩⟩
  · exact ⟨rfl, .inl rfl⟩

variable {ifVersion : Nat}

theorem ensures_put {value : Value}
    : Ensures maxReadEvents working thread (PutOutcome working w key value ifVersion)
      (Program.put key value ifVersion).run w := by
  rintro reply left ⟨choice, kept, works, performed⟩
  simp only [World.perform, foundVersion_kept kept] at performed
  split at performed
  · next fails =>
      cases performed
      exact .failed (excused_of_fails fails works)
  · split at performed <;> cases performed
    · next same => exact .written same.symm
    · next apart => exact .conflict (Ne.symm apart)

theorem ensures_advance {input : AdvanceHeadInput}
    : Ensures maxReadEvents working thread (AdvanceOutcome working w thread input ifVersion)
      (Program.advance input ifVersion).run w := by
  rintro reply left ⟨choice, kept, works, performed⟩
  simp only [World.perform, foundVersion_kept kept] at performed
  split at performed
  · next fails =>
      cases performed
      exact .failed (excused_of_fails fails works)
  · split at performed <;> cases performed
    · next same => exact .written same.symm
    · next apart => exact .conflict (Ne.symm apart)

theorem ensures_delete
    : Ensures maxReadEvents working thread (DeleteOutcome working w key ifVersion)
      (Program.delete key ifVersion).run w := by
  rintro reply left ⟨choice, -, -, performed⟩
  simp only [World.perform] at performed
  split at performed
  · cases performed
    exact .failed
  · split at performed
    · split at performed <;> cases performed
      · next live => exact .deleted live
      · next gone => exact .absent (by simpa using gone)
    · cases performed
      exact .failed

theorem ensures_publish {payload : Payload}
    : Ensures maxReadEvents working thread (PublishOutcome working w thread payload)
      (Program.publish payload).run w := by
  rintro reply left ⟨choice, -, works, performed⟩
  simp only [World.perform] at performed
  split at performed
  · next fails =>
      cases performed
      exact .failed (excused_of_fails fails works)
  · split at performed
    · next appends =>
        cases performed
        exact .published appends
    · exact absurd performed (by simp)

theorem ensures_reread
    : Ensures maxReadEvents working thread (fun outcome left =>
        left.store = w.store ∧ left.log = w.log ∧ (outcome = .ok (w.store.get .current)
          ∨ ∃ failure, outcome = .error failure ∧ Excused working failure))
      Program.reread.run w := by
  rintro reply left ⟨choice, -, works, performed⟩
  simp only [World.perform] at performed
  split at performed
  · next fails =>
      cases performed
      exact ⟨rfl, rfl, .inr ⟨_, rfl, excused_of_fails fails works⟩⟩
  · cases performed
    split <;> exact ⟨rfl, rfl, .inl rfl⟩

variable {α : Type}

/-- What is read is known to the rest, unless it could not be read. -/
theorem ensures_reads {β : Type} {post : Except Failure β → World ι → Prop} {value : α}
    {program : Program α} {rest : α → Program β}
    (reads : Ensures maxReadEvents working thread (Reads working w value) program.run w)
    (failed : ∀ failure, Excused working failure → post (.error failure) w)
    (h : Ensures maxReadEvents working thread post (rest value).run w)
    : Ensures maxReadEvents working thread post (program >>= rest).run w := by
  refine Prog.Ensures.try_ reads ?_ ?_
  · rintro found left ⟨rfl, same | ⟨failure, none_, -⟩⟩
    · exact Except.ok.inj same ▸ h
    · exact absurd none_ (by simp)
  · rintro error left ⟨rfl, none_ | ⟨failure, same, excused⟩⟩
    · exact absurd none_ (by simp)
    · exact Except.error.inj same ▸ failed failure excused

theorem ensures_attempt {β : Type} {between : Except Failure α → World ι → Prop}
    {post : Except Failure β → World ι → Prop} {program : Program α}
    {rest : Except Failure α → Program β}
    (first : Ensures maxReadEvents working thread between program.run w)
    (h : ∀ outcome left, between outcome left →
      Ensures maxReadEvents working thread post (rest outcome).run left)
    : Ensures maxReadEvents working thread post (Program.attempt program >>= rest).run w := by
  have looked : Ensures maxReadEvents working thread
      (fun result left => ∃ outcome, result = .ok outcome ∧ between outcome left)
      (Program.attempt program).run w :=
    Prog.Ensures.bind first fun outcome left stated => ⟨outcome, rfl, stated⟩
  refine Prog.Ensures.try_ looked ?_ ?_
  · rintro value left ⟨outcome, same, stated⟩
    exact Except.ok.inj same ▸ h outcome left stated
  · rintro error left ⟨outcome, none_, -⟩
    exact absurd none_ (by simp)

theorem ensures_outside {post : α → World ι → Prop} {call : Call}
    {rest : Reply call → Prog Call Reply α} (outside : call.Outside)
    (h : ∀ reply, Ensures maxReadEvents working thread post (rest reply) w)
    : Ensures maxReadEvents working thread post (.call call rest) w := by
  intro reply left served
  exact performs_outside outside served.performs ▸ h reply

theorem ensures_check {post : Except Failure α → World ι → Prop} {failure : Option Failure}
    {rest : Unit → Program α} (failed : ∀ cause, failure = some cause → post (.error cause) w)
    (h : failure = none → Ensures maxReadEvents working thread post (rest ()).run w)
    : Ensures maxReadEvents working thread post (Program.check failure >>= rest).run w := by
  cases failure with
  | none => exact h rfl
  | some cause => exact failed cause rfl

def headRead (maxReadEvents : Nat) (w : World ι) : Option Head :=
  w.head.bind fun head => readHead head (w.stateEvents maxReadEvents)

def knownVersion (maxReadEvents : Nat) (w : World ι) (key : Key) : Nat :=
  match w.store.get key with
  | some entry => entry.2
  | none => lastDeletedVersion key (w.stateEvents maxReadEvents)

/-- A head whose proof is settled is read without events. -/
theorem readHead_nil {head : Head} {events : List Event} (settled : needsEvents head = false)
    : readHead head [] = readHead head events := by
  by_cases durable : head.protocolVersion = some durableHeadProtocolVersion
  · simp [readHead, durable, settled]
  · simp [needsEvents, durable] at settled

theorem ensures_getHead
    : Ensures maxReadEvents working thread (Reads working w (headRead maxReadEvents w))
      getHead.run w := by
  refine ensures_reads ensures_get (fun failure excused => ⟨rfl, .inr ⟨_, rfl, excused⟩⟩) ?_
  cases found : (w.store.get .current).bind toHead with
  | none => exact ⟨rfl, .inl (congrArg _ (by simp [headRead, World.head, found]))⟩
  | some head =>
      have read : headRead maxReadEvents w = readHead head (w.stateEvents maxReadEvents) := by
        simp [headRead, World.head, found]
      simp only
      split
      · refine ensures_reads ensures_read (fun failure excused => ⟨rfl, .inr ⟨_, rfl, excused⟩⟩) ?_
        exact ⟨rfl, .inl (congrArg _ read.symm)⟩
      · next settled =>
          have same := @readHead_nil head (w.stateEvents maxReadEvents) (by simpa using settled)
          exact ⟨rfl, .inl (congrArg _ (same.trans read.symm))⟩

theorem ensures_versionOf
    : Ensures maxReadEvents working thread (Reads working w (knownVersion maxReadEvents w key))
      (versionOf key (w.store.get key)).run w := by
  cases found : w.store.get key with
  | some entry => exact ⟨rfl, .inl (congrArg _ (by simp [knownVersion, found]))⟩
  | none =>
      refine ensures_reads ensures_read (fun failure excused => ⟨rfl, .inr ⟨_, rfl, excused⟩⟩) ?_
      exact ⟨rfl, .inl (congrArg _ (by simp [knownVersion, found]))⟩

structure PreparedAt (maxReadEvents : Nat) (w : World ι) (file : JsString) (update : LedgerUpdate)
    : Prop where
  key : update.key = .complexity file
  before : update.before = w.store.get update.key
  expected : update.expectedVersion = knownVersion maxReadEvents w update.key

/-- The updates of files: one for each of some of them, in their order. -/
structure Updates (maxReadEvents : Nat) (w : World ι) (files : List JsString)
    (updates : List LedgerUpdate) : Prop where
  keys : (updates.map (·.key)).Sublist (files.map .complexity)
  prepared : ∀ update ∈ updates, ∃ file ∈ files, PreparedAt maxReadEvents w file update

/-- A preparation that was excused, or prepared updates as stated. -/
def Prepares {α : Type} (working : Bool) (w : World ι) (stated : α → Prop)
    (outcome : Except Failure α) (w' : World ι) : Prop :=
  w' = w ∧ ((∃ value, outcome = .ok value ∧ stated value)
    ∨ ∃ failure, outcome = .error failure ∧ Excused working failure)

variable {ts : Nat}

theorem ensures_prepareFile {file : JsString}
    : Ensures maxReadEvents working thread (Prepares working w fun prepared =>
        ∀ update, prepared.2 = some update → PreparedAt maxReadEvents w file update)
      (prepareFile ts file).run w := by
  refine ensures_outside (show (Call.measure file).Outside from trivial) fun measured => ?_
  cases measured with
  | none => exact ⟨rfl, .inl ⟨_, rfl, by simp⟩⟩
  | some found =>
      refine ensures_reads ensures_get (fun failure excused => ⟨rfl, .inr ⟨_, rfl, excused⟩⟩) ?_
      refine ensures_reads ensures_versionOf
        (fun failure excused => ⟨rfl, .inr ⟨_, rfl, excused⟩⟩) ?_
      refine ⟨rfl, .inl ⟨_, rfl, ?_⟩⟩
      rintro update ⟨rfl⟩
      exact ⟨rfl, rfl, rfl⟩

theorem ensures_prepareComplexity {files : List JsString}
    : Ensures maxReadEvents working thread (Prepares working w fun prepared =>
        Updates maxReadEvents w files prepared.updates)
      (prepareComplexity ts files).run w := by
  induction files with
  | nil => exact ⟨rfl, .inl ⟨_, rfl, List.nil_sublist _, by simp⟩⟩
  | cons file rest ih =>
      refine Prog.Ensures.try_ ensures_prepareFile ?_ ?_
      · rintro ⟨delta, update⟩ left ⟨rfl, ⟨value, same, prepared⟩ | ⟨failure, none_, -⟩⟩
        · obtain rfl := Except.ok.inj same
          refine Prog.Ensures.try_ ih ?_ ?_
          · rintro others left ⟨rfl, ⟨value, same, updates⟩ | ⟨failure, none_, -⟩⟩
            · obtain rfl := Except.ok.inj same
              refine ⟨rfl, .inl ⟨_, rfl, ?_⟩⟩
              cases update with
              | none =>
                  refine ⟨updates.keys.cons _, fun found member => ?_⟩
                  obtain ⟨other, inside, prepared⟩ := updates.prepared found member
                  exact ⟨other, List.mem_cons_of_mem _ inside, prepared⟩
              | some first =>
                  have prepared := prepared first rfl
                  constructor
                  · simpa [prepared.key] using updates.keys
                  · intro found member
                    rcases List.mem_cons.mp member with rfl | inside
                    · exact ⟨file, List.mem_cons_self, prepared⟩
                    · obtain ⟨other, inside, prepared⟩ := updates.prepared found inside
                      exact ⟨other, List.mem_cons_of_mem _ inside, prepared⟩
            · exact absurd none_ (by simp)
          · rintro error left ⟨rfl, ⟨value, none_, -⟩ | ⟨failure, same, excused⟩⟩
            · exact absurd none_ (by simp)
            · exact ⟨rfl, .inr ⟨error, rfl, Except.error.inj same ▸ excused⟩⟩
        · exact absurd none_ (by simp)
      · rintro error left ⟨rfl, ⟨value, none_, -⟩ | ⟨failure, same, excused⟩⟩
        · exact absurd none_ (by simp)
        · exact ⟨rfl, .inr ⟨error, rfl, Except.error.inj same ▸ excused⟩⟩

variable {input : TransitionInput}

theorem ensures_prepare
    : Ensures maxReadEvents working thread (Prepares working w fun prepared =>
        Updates maxReadEvents w (input.complexity.getD []) ((prepared.map (·.updates)).getD []))
      (prepare input ts).run w := by
  unfold prepare
  split
  · next files same =>
      refine Prog.Ensures.bind ensures_prepareComplexity ?_
      rintro outcome left ⟨rfl, ⟨value, rfl, updates⟩ | ⟨failure, rfl, excused⟩⟩
      · exact ⟨rfl, .inl ⟨_, rfl, by simpa [same] using updates⟩⟩
      · exact ⟨rfl, .inr ⟨failure, rfl, excused⟩⟩
  · exact ⟨rfl, .inl ⟨_, rfl, List.nil_sublist _, by simp⟩⟩

def Failure.declines : Failure → Bool
  | .fromMismatch .. | .reduction _ | .refused _ => true
  | _ => false

/-- Whether a head that is there is read. -/
def HeadReads (maxReadEvents : Nat) (w : World ι) : Prop :=
  (w.store.get .current).isSome → (headRead maxReadEvents w).isSome

/-- What `propose` ends in: a published proposal, or a failure that left all as it was. -/
inductive ProposeOutcome (maxReadEvents : Nat) (working : Bool) (w : World ι) (thread : ι)
    (input : TransitionInput) : Except Failure Proposal → World ι → Prop
  | proposed {proposal : Proposal} {choice : Choice} (appends : w.Appends choice)
      (reads : HeadReads maxReadEvents w)
      (updates : Updates maxReadEvents w (input.complexity.getD []) proposal.updates)
      (expected : proposal.expectedVersion = knownVersion maxReadEvents w .current)
      (event : proposal.event = ⟨choice.id, choice.sequence, .transition .proposed proposal.data⟩)
      : ProposeOutcome maxReadEvents working w thread input (.ok proposal)
          (w.append thread choice (.transition .proposed proposal.data) none)
  | refused {failure : Failure} (cause : Excused working failure ∨ failure.declines = true
        ∨ ¬HeadReads maxReadEvents w)
      : ProposeOutcome maxReadEvents working w thread input (.error failure) w

theorem declines_of_checkFrom {current : Option Head} {failure : Failure}
    (h : checkFrom input current = some failure)
    : failure.declines = true := by
  unfold checkFrom at h
  split at h
  · split at h
    · cases h
      rfl
    · exact absurd h (by simp)
  · exact absurd h (by simp)

theorem declines_of_checkReduction {prepared : Option PreparedComplexity} {failure : Failure}
    (h : checkReduction input prepared = some failure)
    : failure.declines = true := by
  unfold checkReduction at h
  split at h
  · split at h
    · cases h
      rfl
    · exact absurd h (by simp)
  · exact absurd h (by simp)

/-- The part of a transition that only reads the head. -/
theorem ensures_headPart {post : Except Failure α → World ι → Prop} {rest : Nat → Program α}
    (refused : ∀ failure, Excused working failure ∨ failure.declines = true
      ∨ ¬HeadReads maxReadEvents w → post (.error failure) w) (h : HeadReads maxReadEvents w →
      Ensures maxReadEvents working thread post
        (rest (knownVersion maxReadEvents w .current)).run w)
    : Ensures maxReadEvents working thread post (do
        let physicalCurrent ← Program.get .current
        let current ← getHead
        let expectedVersion ← versionOf .current physicalCurrent
        Program.check (if physicalCurrent.isSome && current.isNone then some .quarantined else none)
        Program.check (checkFrom input current)
        rest expectedVersion : Program α).run w := by
  refine ensures_reads ensures_get (fun failure excused => refused _ (.inl excused)) ?_
  refine ensures_reads ensures_getHead (fun failure excused => refused _ (.inl excused)) ?_
  refine ensures_reads ensures_versionOf (fun failure excused => refused _ (.inl excused)) ?_
  refine ensures_check (fun cause same => refused _ (.inr (.inr ?_))) fun readable => ?_
  · intro reads
    split at same
    · next quarantined =>
        simp only [Bool.and_eq_true] at quarantined
        have read := reads quarantined.1
        simp [Option.isNone_iff_eq_none.mp quarantined.2] at read
    · exact absurd same (by simp)
  · refine ensures_check
      (fun cause same => refused _ (.inr (.inl (declines_of_checkFrom same)))) fun _ => h ?_
    intro live
    by_contra unread
    simp [live, Option.not_isSome_iff_eq_none.mp unread] at readable

theorem ensures_propose
    : Ensures maxReadEvents working thread (ProposeOutcome maxReadEvents working w thread input)
      (propose input).run w := by
  refine ensures_headPart (fun failure cause => .refused cause) fun reads => ?_
  refine ensures_outside (show Call.now.Outside from trivial) fun ts => ?_
  refine Prog.Ensures.try_ ensures_prepare ?_ ?_
  · rintro prepared left ⟨rfl, ⟨value, same, updates⟩ | ⟨failure, none_, -⟩⟩
    · obtain rfl := Except.ok.inj same
      refine ensures_check
        (fun cause same => .refused (.inr (.inl (declines_of_checkReduction same)))) fun _ => ?_
      refine Prog.Ensures.try_ ensures_publish ?_ ?_
      · rintro event left ⟨appends⟩
        exact .proposed appends reads updates rfl rfl
      · rintro error left ⟨⟩
        next excused => exact .refused (.inl excused)
    · exact absurd none_ (by simp)
  · rintro error left ⟨rfl, ⟨value, none_, -⟩ | ⟨failure, same, excused⟩⟩
    · exact absurd none_ (by simp)
    · exact .refused (.inl (Except.error.inj same ▸ excused))

end PiFabric.Timeline
