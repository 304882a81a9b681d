import PiFabric.Foundation.Samples
import PiFabric.Foundation.Outcome
import PiFabric.Records.Lsn

/-! The record admission gate: the lag of the off-host archive behind the insert position, from
sampled positions and the frontiers that the archive's targets report. New records are refused
while the lag is above a limit.
-/

namespace PiFabric.Records

open JsString

structure AdmissionTargetStatus where
  name : JsString
  frontier : Option JsString
  checkedAt : Option Int
  error : Option JsString
deriving DecidableEq, Repr

inductive AdmissionState where
  | ok
  | alarm
  | refuse
  | disabled
deriving DecidableEq, Repr

structure AdmissionStatus where
  state : AdmissionState
  lagSeconds : Int
  frontier : Option JsString
  insertLsn : JsString
  targets : List AdmissionTargetStatus
  checkedAt : Int
  alarmSeconds : Int
  refuseSeconds : Int
deriving DecidableEq, Repr

/-- The options of the constructor that later calls read. -/
structure AdmissionOptions where
  providers : List JsString
  alarmSeconds : Option Int
  refuseSeconds : Option Int
  maxSamples : Option Nat

structure AdmissionGate where
  alarmSeconds : Int
  refuseSeconds : Int
  maxSamples : Nat
  targets : List AdmissionTargetStatus
  samples : List (Sample Int Nat)
  last : Option AdmissionStatus
  refreshes : Nat

/-- What `Promise.allSettled` reports of one provider; a rejection with the text of its reason. -/
inductive Settled where
  | fulfilled (value : Option JsString)
  | rejected (reason : JsString)

/-- The argument of `evaluate`; a time that is not a finite number counts as none. -/
structure AdmissionInput where
  insertLsn : JsString
  oldestUncoveredAt : Option Int

namespace AdmissionGate

def create (options : AdmissionOptions) : AdmissionGate where
  alarmSeconds := options.alarmSeconds.getD 120
  refuseSeconds := options.refuseSeconds.getD 300
  maxSamples := max 2 (options.maxSamples.getD 1000)
  targets := options.providers.map fun name => ⟨name, none, none, none⟩
  samples := []
  last := none
  refreshes := 0

def enabled (gate : AdmissionGate) : Bool :=
  !gate.targets.isEmpty

def settle (target : AdmissionTargetStatus) (at_ : Int) : Settled → AdmissionTargetStatus
  | .fulfilled (some value) =>
      match lsnToBigInt value with
      -- A lower frontier replaces a higher one.
      | .ok _ => { target with frontier := some value, checkedAt := some at_, error := none }
      | .error message => { target with error := some message }
  | .fulfilled none => { target with error := some (lit "no recoverable WAL frontier") }
  | .rejected reason => { target with error := some reason }

def settleAll (results : List Settled) (at_ : Int) (gate : AdmissionGate) : AdmissionGate :=
  { gate with
    targets := gate.targets.mapIdx fun index target =>
      match results[index]? with
      | some result => settle target at_ result
      | none => target
    refreshes := gate.refreshes + 1 }

def sampled (position : Nat) (at_ : Int) (gate : AdmissionGate) : AdmissionGate :=
  { gate with samples := Samples.push gate.maxSamples gate.samples ⟨at_, position⟩ }

def sample (insertLsn : JsString) (at_ : Int) (gate : AdmissionGate)
    : Except JsString Unit × AdmissionGate :=
  match lsnToBigInt insertLsn with
  | .error message => (.error message, gate)
  | .ok position => (.ok (), gate.sampled position at_)

/-- The loop that takes the greatest frontier of the targets; `best` is the greatest so far. -/
def frontierOf (best : Option Nat) : List AdmissionTargetStatus → Except JsString (Option Nat)
  | [] => .ok best
  | target :: rest =>
      match target.frontier with
      | none => frontierOf best rest
      | some lsn => do
          let value ← lsnToBigInt lsn
          frontierOf (if best.all fun highest => highest < value then some value else best) rest

def uncoveredBy (frontier : Option Nat) (samples : List (Sample Int Nat))
    : List (Sample Int Nat) :=
  match frontier with
  | some covered => samples.filter fun sample => covered < sample.position
  | none => samples

/-- `lagSeconds` of `evaluate`: the age of the oldest candidate, in whole seconds. -/
def lagOf (now : Int) (candidates : List Int) : Int :=
  match candidates.min? with
  | some oldest => max 0 ((now - oldest) / 1000)
  | none => 0

def stateOf (gate : AdmissionGate) (lagSeconds : Int) : AdmissionState :=
  if !gate.enabled then .disabled
  else if gate.refuseSeconds < lagSeconds then .refuse
  else if gate.alarmSeconds ≤ lagSeconds then .alarm
  else .ok

def measure (gate : AdmissionGate) (frontier : Option Nat) (insert : Nat) (now : Int)
    (oldestUncoveredAt : Option Int) : Int :=
  if gate.enabled ∧ frontier.all fun covered => covered < insert then
    lagOf now (oldestUncoveredAt.toList ++ (gate.samples.head?.map Sample.seenAt).toList)
  else 0

def cutAt (frontier : Option Nat) (gate : AdmissionGate) : AdmissionGate :=
  { gate with samples := uncoveredBy frontier gate.samples }

def report (gate : AdmissionGate) (insertLsn : JsString) (frontier : Option JsString)
    (lagSeconds now : Int) : AdmissionStatus where
  state := gate.stateOf lagSeconds
  lagSeconds
  frontier
  insertLsn
  targets := gate.targets
  checkedAt := now
  alarmSeconds := gate.alarmSeconds
  refuseSeconds := gate.refuseSeconds

def evaluate (input : AdmissionInput) (now : Int) (gate : AdmissionGate)
    : Except JsString AdmissionStatus × AdmissionGate :=
  match lsnToBigInt input.insertLsn with
  | .error message => (.error message, gate)
  | .ok insert =>
      let gate := gate.sampled insert now
      match frontierOf none gate.targets with
      | .error message => (.error message, gate)
      | .ok frontier =>
          let gate := gate.cutAt frontier
          let lagSeconds := gate.measure frontier insert now input.oldestUncoveredAt
          match frontier.mapM bigIntToLsn with
          | .error message => (.error message, gate)
          | .ok text =>
              let status := gate.report input.insertLsn text lagSeconds now
              (.ok status, { gate with last := some status })

def check (input : AdmissionInput) (now : Int) (gate : AdmissionGate)
    : Except JsString AdmissionStatus × AdmissionGate :=
  let result := gate.evaluate input now
  match result.1 with
  | .ok status =>
      if status.state = .refuse then
        (.error (lit "record archive lagging " ++ Json.integerToken status.lagSeconds
          ++ lit " s; retry with the same key"), result.2)
      else result
  | .error _ => result

/-- `refresh` after its providers settled at `at_`; the clock reads `now` in its `evaluate`. -/
def refresh (results : List Settled) (at_ now : Int) (gate : AdmissionGate)
    : Except JsString (Option AdmissionStatus) × AdmissionGate :=
  let gate := gate.settleAll results at_
  match gate.last with
  | none => (.ok none, gate)
  | some last =>
      let result := gate.evaluate ⟨last.insertLsn, none⟩ now
      (result.1.map fun _ => result.2.last, result.2)

end AdmissionGate

def aboveFrontiers (targets : List AdmissionTargetStatus) (position : Nat) : Bool :=
  targets.all fun target => target.frontier.all fun lsn =>
    match lsnToBigInt lsn with
    | .ok value => value < position
    | .error _ => true

/-- Every frontier that a target holds is a position. -/
def Readable (targets : List AdmissionTargetStatus) : Prop :=
  ∀ target ∈ targets, ∀ lsn ∈ target.frontier, ∃ value, lsnToBigInt lsn = .ok value

namespace AdmissionGate

theorem settle_readable {target : AdmissionTargetStatus} {at_ : Int} {result : Settled}
    (readable : ∀ lsn ∈ target.frontier, ∃ value, lsnToBigInt lsn = .ok value)
    : ∀ lsn ∈ (settle target at_ result).frontier, ∃ value, lsnToBigInt lsn = .ok value := by
  intro lsn member
  match result with
  | .fulfilled none => exact readable lsn member
  | .rejected _ => exact readable lsn member
  | .fulfilled (some value) =>
      simp only [settle] at member
      split at member
      · next read =>
          obtain rfl := Option.some.inj member
          exact ⟨_, read⟩
      · exact readable lsn member

/-- A refresh leaves readable frontiers: it keeps a target's frontier or takes one it has read. -/
theorem settleAll_readable {gate : AdmissionGate} {results : List Settled} {at_ : Int}
    (readable : Readable gate.targets)
    : Readable (gate.settleAll results at_).targets := by
  intro target member
  obtain ⟨index, inside, rfl⟩ := List.mem_mapIdx.mp member
  have before := readable gate.targets[index] (List.getElem_mem inside)
  split
  · exact settle_readable before
  · exact before

variable {targets : List AdmissionTargetStatus}

/-- The loop finds the greatest frontier: a position is above it exactly where it is above the one
found so far and above every target's. By induction over the targets.
-/
theorem frontierOf_above (readable : Readable targets) (best : Option Nat)
    : ∃ frontier, frontierOf best targets = .ok frontier
      ∧ ∀ position, (frontier.all fun covered => covered < position)
        = (best.all (fun covered => covered < position) && aboveFrontiers targets position) := by
  induction targets generalizing best with
  | nil => exact ⟨best, rfl, fun position => by simp [aboveFrontiers]⟩
  | cons target rest ih =>
      have later : Readable rest := fun other member =>
        readable other (List.mem_cons_of_mem _ member)
      cases held : target.frontier with
      | none =>
          obtain ⟨frontier, found, above⟩ := ih later best
          refine ⟨frontier, by simpa only [frontierOf, held] using found, fun position => ?_⟩
          rw [above, aboveFrontiers, aboveFrontiers, List.all_cons, held]
          simp
      | some lsn =>
          obtain ⟨value, read⟩ := readable target List.mem_cons_self lsn held
          obtain ⟨frontier, found, above⟩ :=
            ih later (if best.all fun highest => highest < value then some value else best)
          refine ⟨frontier, ?_, fun position => ?_⟩
          · simpa only [frontierOf, held, read, Outcome.ok_bind] using found
          · rw [above, aboveFrontiers, aboveFrontiers, List.all_cons, held, ← Bool.and_assoc]
            congr 1
            -- The greater of the two is below a position where both are.
            cases best with
            | none => simp [read]
            | some highest =>
                by_cases higher : highest < value
                · simp only [Option.all_some, higher, decide_true, if_true, read]
                  grind
                · simp only [Option.all_some, higher, decide_false, Bool.false_eq_true, if_false,
                    read]
                  grind

variable {frontier : Option Nat}

/-- The loop stays within the range of positions, by induction over the targets. -/
theorem frontierOf_le {best : Option Nat} (small : ∀ value ∈ best, value ≤ maxLsn)
    (found : frontierOf best targets = .ok frontier)
    : ∀ value ∈ frontier, value ≤ maxLsn := by
  induction targets generalizing best with
  | nil =>
      obtain rfl := Except.ok.inj found
      exact small
  | cons target rest ih =>
      simp only [frontierOf] at found
      split at found
      · exact ih small found
      · obtain ⟨value, read, found⟩ := Outcome.bind_eq_ok.mp found
        refine ih ?_ found
        split
        · intro highest same
          obtain rfl := Option.some.inj same
          exact lsnToBigInt_le read
        · exact small

theorem frontierOf_text (found : frontierOf none targets = .ok frontier)
    : ∃ text, frontier.mapM bigIntToLsn = .ok text := by
  cases frontier with
  | none => exact ⟨none, rfl⟩
  | some value =>
      have small := frontierOf_le (by simp) found value rfl
      obtain ⟨lsn, written, _⟩ := lsnToBigInt_bigIntToLsn small
      exact ⟨some lsn, by rw [Option.mapM_some, written]; rfl⟩

theorem le_lagOf {now a : Int} {candidates : List Int} {candidate : Int}
    (member : candidate ∈ candidates) (old : candidate ≤ a)
    : (now - a) / 1000 ≤ lagOf now candidates := by
  cases least : candidates.min? with
  | none => exact absurd member (by simp [List.min?_eq_none_iff.mp least])
  | some oldest =>
      have below : oldest ≤ candidate := (List.min?_eq_some_iff.mp least).2 candidate member
      simp only [lagOf, least]
      omega

/-- The samples that a frontier leaves stand for what is above it. -/
theorem dominated_uncoveredBy {samples : List (Sample Int Nat)} {a : Int} {position : Nat}
    (above : (frontier.all fun covered => covered < position) = true)
    (dominated : Samples.Dominated samples a position)
    : Samples.Dominated (uncoveredBy frontier samples) a position := by
  cases frontier with
  | none => exact dominated
  | some covered => exact dominated.above (by simpa using above)

theorem uncoveredBy_sublist (frontier : Option Nat) (samples : List (Sample Int Nat))
    : (uncoveredBy frontier samples).Sublist samples := by
  cases frontier with
  | none => exact List.Sublist.refl _
  | some covered => exact List.filter_sublist

/-- What `evaluate` does where the position and the frontiers are readable: it samples, cuts the
samples at the greatest frontier and reports the age of the oldest one left.
-/
theorem evaluate_spec {gate : AdmissionGate} {input : AdmissionInput} {now : Int} {insert : Nat}
    (readable : Readable gate.targets) (read : lsnToBigInt input.insertLsn = .ok insert)
    : ∃ frontier status,
      (∀ position, (frontier.all fun covered => covered < position)
        = aboveFrontiers gate.targets position)
      ∧ gate.evaluate input now
        = (.ok status, { (gate.sampled insert now).cutAt frontier with last := some status })
      ∧ status.lagSeconds = ((gate.sampled insert now).cutAt frontier).measure frontier insert now
        input.oldestUncoveredAt := by
  obtain ⟨frontier, found, above⟩ := frontierOf_above readable none
  obtain ⟨text, written⟩ := frontierOf_text found
  have found' : frontierOf none (gate.sampled insert now).targets = .ok frontier := found
  refine ⟨frontier, ((gate.sampled insert now).cutAt frontier).report input.insertLsn text
    (((gate.sampled insert now).cutAt frontier).measure frontier insert now
      input.oldestUncoveredAt) now, fun position => by simpa using above position, ?_, rfl⟩
  simp only [evaluate, read, found', written]

end AdmissionGate

end PiFabric.Records
