import PiFabric.Records.Admission

/-! Runs of the admission gate. -/

namespace PiFabric.Records

open JsString

/-- A call of the gate with what it reads from its providers, its caller and the clock. -/
inductive AdmissionCall where
  | refresh (results : List Settled) (settledAt now : Int)
  | sample (insertLsn : JsString) (now : Int)
  | evaluate (input : AdmissionInput) (now : Int)
  | check (input : AdmissionInput) (now : Int)

/-- An `evaluate` of a readable position, also the one inside `refresh` or `check`. -/
structure Evaluation where
  gate : AdmissionGate
  input : AdmissionInput
  insert : Nat
  read : lsnToBigInt input.insertLsn = .ok insert
  now : Int

namespace AdmissionCall

def times : AdmissionCall → List Int
  | .refresh _ settledAt now => [settledAt, now]
  | .sample _ now => [now]
  | .evaluate _ now => [now]
  | .check _ now => [now]

end AdmissionCall

namespace AdmissionGate

def after (gate : AdmissionGate) : AdmissionCall → AdmissionGate
  | .refresh results settledAt now => (gate.refresh results settledAt now).2
  | .sample insertLsn now => (gate.sample insertLsn now).2
  | .evaluate input now => (gate.evaluate input now).2
  | .check input now => (gate.check input now).2

def evaluationOf (gate : AdmissionGate) (input : AdmissionInput) (now : Int)
    : Option Evaluation :=
  match read : lsnToBigInt input.insertLsn with
  | .ok insert => some ⟨gate, input, insert, read, now⟩
  | .error _ => none

def evaluation (gate : AdmissionGate) : AdmissionCall → Option Evaluation
  | .refresh results settledAt now =>
      let settled := gate.settleAll results settledAt
      settled.last.bind fun last => settled.evaluationOf ⟨last.insertLsn, none⟩ now
  | .sample .. => none
  | .evaluate input now => gate.evaluationOf input now
  | .check input now => gate.evaluationOf input now

def samples? : AdmissionCall → Option (Sample Int Nat)
  | .sample insertLsn now =>
      match lsnToBigInt insertLsn with
      | .ok position => some ⟨now, position⟩
      | .error _ => none
  | _ => none

end AdmissionGate

/-- A gate with the positions it has sampled: all of them, and those that were above the frontiers
at every evaluation since.
-/
structure Watched where
  gate : AdmissionGate
  seen : List (Sample Int Nat)
  uncovered : List (Sample Int Nat)

namespace Watched

def start (options : AdmissionOptions) : Watched :=
  ⟨.create options, [], []⟩

def step (watched : Watched) (call : AdmissionCall) : Watched :=
  let gate := watched.gate.after call
  match watched.gate.evaluation call with
  | some made =>
      let fresh : Sample Int Nat := ⟨made.now, made.insert⟩
      { gate
        seen := watched.seen ++ [fresh]
        uncovered := (watched.uncovered ++ [fresh]).filter fun sample =>
          aboveFrontiers made.gate.targets sample.position }
  | none =>
      let fresh := (AdmissionGate.samples? call).toList
      { gate
        seen := watched.seen ++ fresh
        uncovered := watched.uncovered ++ fresh }

/-- A property of every call of a run and the state before it. -/
def Always (holds : Watched → AdmissionCall → Prop) (watched : Watched)
    : List AdmissionCall → Prop
  | [] => True
  | call :: rest => holds watched call ∧ Always holds (watched.step call) rest

/-- An evaluation of the call, where the gate is enabled, reports a lag of at least the age of every
sampled position above the current frontiers.
-/
def CoversLag (watched : Watched) (call : AdmissionCall) : Prop :=
  ∀ made, watched.gate.evaluation call = some made → made.gate.enabled = true →
    ∃ status, (made.gate.evaluate made.input made.now).1 = .ok status
      ∧ ∀ sample ∈ watched.seen, aboveFrontiers made.gate.targets sample.position = true →
        (made.now - sample.seenAt) / 1000 ≤ status.lagSeconds

/-- Where an evaluation of the call finds a sampled position above the current frontiers, the
evaluated position is above them too, and a position as high and as old was above the frontiers of
every evaluation since it was sampled, or the caller gives a time as old.
-/
def StillUncovered (watched : Watched) (call : AdmissionCall) : Prop :=
  ∀ made, watched.gate.evaluation call = some made →
    ∀ sample ∈ watched.seen, aboveFrontiers made.gate.targets sample.position = true →
      aboveFrontiers made.gate.targets made.insert = true
      ∧ (Samples.Dominated watched.uncovered sample.seenAt sample.position
        ∨ ∃ oldest ∈ made.input.oldestUncoveredAt, oldest ≤ sample.seenAt)

/-- What holds of a gate between calls: its samples rise and stand for every uncovered position. -/
structure Sound (watched : Watched) : Prop where
  roomy : 0 < watched.gate.maxSamples
  readable : Readable watched.gate.targets
  rising : Samples.Rising watched.gate.samples
  stands : ∀ sample ∈ watched.uncovered,
    Samples.Dominated watched.gate.samples sample.seenAt sample.position

/-- No sample of the gate is from after the given times. -/
def Before (gate : AdmissionGate) (times : List Int) : Prop :=
  ∀ sample ∈ gate.samples, ∀ time ∈ times, sample.seenAt ≤ time

theorem start_sound (options : AdmissionOptions) : Sound (start options) where
  roomy := lt_max_of_lt_left Nat.two_pos
  readable := by
    intro target member lsn held
    obtain ⟨name, _, rfl⟩ := List.mem_map.mp member
    cases held
  rising := List.Pairwise.nil
  stands := by simp [start]

end Watched

namespace AdmissionGate

variable {gate : AdmissionGate}

theorem evaluationOf_eq_some {input : AdmissionInput} {now : Int} {made : Evaluation}
    (h : gate.evaluationOf input now = some made)
    : made.gate = gate ∧ made.input = input ∧ made.now = now := by
  simp only [evaluationOf] at h
  split at h
  · obtain rfl := Option.some.inj h
    exact ⟨rfl, rfl, rfl⟩
  · cases h

/-- Where `evaluate` reads no position, it changes nothing. -/
theorem evaluate_unread {input : AdmissionInput} {now : Int}
    (h : gate.evaluationOf input now = none)
    : (gate.evaluate input now).2 = gate := by
  simp only [evaluationOf] at h
  split at h
  · cases h
  · next unread => simp only [evaluate, unread]

theorem check_after (gate : AdmissionGate) (input : AdmissionInput) (now : Int)
    : (gate.check input now).2 = (gate.evaluate input now).2 := by
  simp only [check]
  split
  · split <;> rfl
  · rfl

def prepared (gate : AdmissionGate) : AdmissionCall → AdmissionGate
  | .refresh results settledAt _ => gate.settleAll results settledAt
  | _ => gate

theorem after_evaluation {call : AdmissionCall} {made : Evaluation}
    (h : gate.evaluation call = some made)
    : made.gate = gate.prepared call
      ∧ gate.after call = (made.gate.evaluate made.input made.now).2
      ∧ made.now ∈ call.times := by
  cases call with
  | refresh results settledAt now =>
      simp only [evaluation, Option.bind_eq_some_iff] at h
      obtain ⟨last, held, h⟩ := h
      obtain ⟨same, given, clock⟩ := evaluationOf_eq_some h
      refine ⟨same, ?_, by simp [AdmissionCall.times, clock]⟩
      simp only [after, refresh, held, same, given, clock]
  | sample insertLsn now => cases h
  | evaluate input now =>
      obtain ⟨same, rfl, rfl⟩ := evaluationOf_eq_some h
      exact ⟨same, by rw [same]; rfl, List.mem_singleton_self _⟩
  | check input now =>
      obtain ⟨same, rfl, rfl⟩ := evaluationOf_eq_some h
      exact ⟨same, by rw [same]; exact check_after .., List.mem_singleton_self _⟩

/-- A call with no evaluation at most settles targets or takes the sample that it reads. -/
theorem after_unevaluated {call : AdmissionCall} (h : gate.evaluation call = none)
    : gate.after call = (samples? call).elim (gate.prepared call) fun fresh =>
        gate.sampled fresh.position fresh.seenAt := by
  cases call with
  | refresh results settledAt now =>
      simp only [evaluation, Option.bind_eq_none_iff] at h
      simp only [after, refresh, samples?, Option.elim_none, prepared]
      split
      · rfl
      · next last held => exact evaluate_unread (h last held)
  | sample insertLsn now =>
      cases read : lsnToBigInt insertLsn <;> simp only [after, sample, samples?, read] <;> rfl
  | evaluate input now => exact evaluate_unread h
  | check input now => exact (check_after ..).trans (evaluate_unread h)

theorem prepared_readable (call : AdmissionCall) (readable : Readable gate.targets)
    : Readable (gate.prepared call).targets := by
  cases call with
  | refresh results settledAt now => exact settleAll_readable readable
  | _ => exact readable

@[simp] theorem prepared_samples (gate : AdmissionGate) (call : AdmissionCall)
    : (gate.prepared call).samples = gate.samples := by
  cases call <;> rfl

@[simp] theorem prepared_maxSamples (gate : AdmissionGate) (call : AdmissionCall)
    : (gate.prepared call).maxSamples = gate.maxSamples := by
  cases call <;> rfl

end AdmissionGate

namespace Watched

variable {call : AdmissionCall}

/-- A sample read by a call without an evaluation was taken at a time of the call. -/
theorem samples_time {fresh : Sample Int Nat} (h : AdmissionGate.samples? call = some fresh)
    : fresh.seenAt ∈ call.times := by
  cases call with
  | sample insertLsn now =>
      simp only [AdmissionGate.samples?] at h
      split at h
      · obtain rfl := Option.some.inj h
        exact List.mem_singleton_self _
      · cases h
  | _ => cases h

variable {watched : Watched}

/-- Taking one sample of the present keeps what holds of a gate, and the sample is stood for. -/
theorem Sound.sampled {fresh : Sample Int Nat} (sound : Sound watched)
    (now : ∀ sample ∈ watched.gate.samples, sample.seenAt ≤ fresh.seenAt)
    : Sound
      { gate := (watched.gate.prepared call).sampled fresh.position fresh.seenAt
        seen := watched.seen ++ [fresh]
        uncovered := watched.uncovered ++ [fresh] } where
  roomy := by simpa [AdmissionGate.sampled] using sound.roomy
  readable := AdmissionGate.prepared_readable call sound.readable
  rising := by
    simp only [AdmissionGate.sampled, AdmissionGate.prepared_samples]
    exact Samples.push_rising sound.rising
  stands := by
    simp only [AdmissionGate.sampled, AdmissionGate.prepared_samples,
      AdmissionGate.prepared_maxSamples]
    intro sample member
    rcases List.mem_append.mp member with member | member
    · exact (sound.stands sample member).push sound.rising sound.roomy
    · obtain rfl := List.mem_singleton.mp member
      exact Samples.push_dominates sound.rising sound.roomy now

theorem evaluation_step {made : Evaluation} (sound : Sound watched)
    (h : watched.gate.evaluation call = some made)
    : ∃ frontier status,
      (∀ position, (frontier.all fun covered => covered < position)
        = aboveFrontiers made.gate.targets position)
      ∧ (made.gate.evaluate made.input made.now).1 = .ok status
      ∧ watched.gate.after call
        = { (made.gate.sampled made.insert made.now).cutAt frontier with last := some status }
      ∧ status.lagSeconds = ((made.gate.sampled made.insert made.now).cutAt frontier).measure
        frontier made.insert made.now made.input.oldestUncoveredAt := by
  obtain ⟨same, after, _⟩ := AdmissionGate.after_evaluation h
  have readable : Readable made.gate.targets := by
    rw [same]
    exact AdmissionGate.prepared_readable call sound.readable
  obtain ⟨frontier, status, above, evaluated, lag⟩ :=
    @AdmissionGate.evaluate_spec made.gate made.input made.now _ readable made.read
  exact ⟨frontier, status, above, by rw [evaluated], by rw [after, evaluated], lag⟩

theorem Sound.step (sound : Sound watched) (past : Before watched.gate call.times)
    : Sound (watched.step call) := by
  simp only [Watched.step]
  split
  · next made evaluated =>
      obtain ⟨frontier, status, above, _, after, _⟩ := evaluation_step sound evaluated
      obtain ⟨same, _, clock⟩ := AdmissionGate.after_evaluation evaluated
      have grown := @Sound.sampled call _ ⟨made.now, made.insert⟩ sound
        fun sample member => past sample member made.now clock
      rw [← same] at grown
      rw [after]
      exact {
        roomy := grown.roomy
        readable := grown.readable
        rising := grown.rising.sublist (AdmissionGate.uncoveredBy_sublist frontier _)
        stands := by
          intro sample member
          obtain ⟨member, uncovered⟩ := List.mem_filter.mp member
          exact AdmissionGate.dominated_uncoveredBy ((above _).trans uncovered)
            (grown.stands sample member) }
  · next unevaluated =>
      rw [AdmissionGate.after_unevaluated unevaluated]
      cases read : AdmissionGate.samples? call with
      | none =>
          simp only [Option.elim_none, Option.toList_none, List.append_nil]
          exact {
            roomy := by simpa using sound.roomy
            readable := AdmissionGate.prepared_readable call sound.readable
            rising := by simpa using sound.rising
            stands := by simpa using sound.stands }
      | some fresh =>
          have grown := @Sound.sampled call watched fresh sound fun sample member =>
            past sample member fresh.seenAt (samples_time read)
          cases call with
          | sample insertLsn now => exact grown
          | _ => cases read

theorem before_step {times : List Int} (sound : Sound watched)
    (past : Before watched.gate call.times) (later : Before watched.gate times)
    (ordered : ∀ time ∈ call.times, ∀ next ∈ times, time ≤ next)
    : Before (watched.step call).gate times := by
  have pushed : ∀ fresh : Sample Int Nat, fresh.seenAt ∈ call.times →
      ∀ sample ∈ Samples.push watched.gate.maxSamples watched.gate.samples fresh,
        ∀ time ∈ times, sample.seenAt ≤ time := by
    intro fresh clock sample member time next
    have bound := Samples.push_past (fun old inside => past old inside fresh.seenAt clock)
      sample member
    exact bound.trans (ordered fresh.seenAt clock time next)
  simp only [Watched.step]
  split
  · next made evaluated =>
      obtain ⟨frontier, status, above, _, after, _⟩ := evaluation_step sound evaluated
      obtain ⟨same, _, clock⟩ := AdmissionGate.after_evaluation evaluated
      intro sample member
      simp only [after] at member
      have inside := (AdmissionGate.uncoveredBy_sublist frontier _).subset member
      simp only [AdmissionGate.sampled, same, AdmissionGate.prepared_samples,
        AdmissionGate.prepared_maxSamples] at inside
      exact pushed ⟨made.now, made.insert⟩ clock sample inside
  · next unevaluated =>
      simp only [AdmissionGate.after_unevaluated unevaluated]
      cases read : AdmissionGate.samples? call with
      | none =>
          intro sample member
          simp only [Option.elim_none, AdmissionGate.prepared_samples] at member
          exact later sample member
      | some fresh => exact pushed fresh (samples_time read)

/-- Where everything above the frontiers is still uncovered, the evaluation of a call covers its
lag: the oldest sample that is left stands for it.
-/
theorem coversLag_of_stillUncovered (sound : Sound watched) (past : Before watched.gate call.times)
    (still : StillUncovered watched call)
    : CoversLag watched call := by
  intro made evaluated enabled
  obtain ⟨frontier, status, above, done, _, lag⟩ := evaluation_step sound evaluated
  obtain ⟨same, _, clock⟩ := AdmissionGate.after_evaluation evaluated
  refine ⟨status, done, fun sample member uncovered => ?_⟩
  obtain ⟨insert, known⟩ := still made evaluated sample member uncovered
  have grown := @Sound.sampled call _ ⟨made.now, made.insert⟩ sound
    fun old inside => past old inside made.now clock
  rw [← same] at grown
  have on : ((made.gate.sampled made.insert made.now).cutAt frontier).enabled = true := enabled
  rw [lag, AdmissionGate.measure, if_pos ⟨on, (above _).trans insert⟩]
  rcases known with ⟨dominant, inside, high, old⟩ | ⟨oldest, given, old⟩
  · -- The position that dominates is above the frontier as well, so it was not cut.
    have stands := grown.stands dominant (List.mem_append_left _ inside)
    have stands : Samples.Dominated (made.gate.sampled made.insert made.now).samples
        sample.seenAt sample.position := by
      obtain ⟨held, member, higher, older⟩ := stands
      exact ⟨held, member, high.trans higher, older.trans old⟩
    obtain ⟨oldest, first, older⟩ := (AdmissionGate.dominated_uncoveredBy
      ((above _).trans uncovered) stands).head
      (grown.rising.sublist (AdmissionGate.uncoveredBy_sublist frontier _))
    refine AdmissionGate.le_lagOf (List.mem_append_right _ ?_) older
    simp only [AdmissionGate.cutAt, first, Option.map_some, Option.toList_some,
      List.mem_singleton]
  · exact AdmissionGate.le_lagOf (List.mem_append_left _ (Option.mem_toList.mpr given)) old

theorem coversLag_from {calls : List AdmissionCall} (sound : Sound watched)
    (past : Before watched.gate (calls.flatMap AdmissionCall.times))
    (ordered : (calls.flatMap AdmissionCall.times).Pairwise (· ≤ ·))
    (still : Always StillUncovered watched calls)
    : Always CoversLag watched calls := by
  induction calls generalizing watched with
  | nil => trivial
  | cons call rest ih =>
      obtain ⟨here, still⟩ := still
      rw [List.flatMap_cons] at past ordered
      obtain ⟨_, ordered, across⟩ := List.pairwise_append.mp ordered
      have now : Before watched.gate call.times := fun sample member time inside =>
        past sample member time (List.mem_append_left _ inside)
      have later : Before watched.gate (rest.flatMap AdmissionCall.times) :=
        fun sample member time inside => past sample member time (List.mem_append_right _ inside)
      exact ⟨coversLag_of_stillUncovered sound now here,
        ih (sound.step now) (before_step sound now later across) ordered still⟩

end Watched

/-- In every run with a clock that does not go back, where each evaluation finds what is above the
frontiers still uncovered, the gate reports at least the age of every sampled position above the
current frontiers.
-/
theorem admission_lag_covers (options : AdmissionOptions) (calls : List AdmissionCall)
    (ordered : (calls.flatMap AdmissionCall.times).Pairwise (· ≤ ·))
    (still : Watched.Always Watched.StillUncovered (.start options) calls)
    : Watched.Always Watched.CoversLag (.start options) calls :=
  Watched.coversLag_from (Watched.start_sound options) (by simp [Watched.Before, Watched.start,
    AdmissionGate.create]) ordered still

def oneTarget : AdmissionOptions := ⟨[lit "archive"], none, none, none⟩

/-- Position 80 is sampled and evaluated under the frontier 100, then the frontier falls to 50. -/
def fallingFrontier : List AdmissionCall :=
  [.sample (lit "0/50") 0, .refresh [.fulfilled (some (lit "0/64"))] 0 0,
    .evaluate ⟨lit "0/50", none⟩ 1,
    .refresh [.fulfilled (some (lit "0/32"))] 1000000 1000000]

/-- After the fall the gate reports no lag, though position 80 was sampled 1000 s before. -/
theorem falling_frontier_hides_lag
    : (fallingFrontier.flatMap AdmissionCall.times).Pairwise (· ≤ ·)
      ∧ ¬Watched.Always Watched.CoversLag (.start oneTarget) fallingFrontier := by
  refine ⟨by decide, ?_⟩
  rintro ⟨_, _, _, covers, _⟩
  have shown : (((fallingFrontier.take 3).foldl Watched.step (.start oneTarget)).gate.evaluation
      (.refresh [.fulfilled (some (lit "0/32"))] 1000000 1000000)).any (fun made =>
        made.now = 1000000 && made.gate.enabled && aboveFrontiers made.gate.targets 80
          && ((made.gate.evaluate made.input made.now).1.toOption.all fun status =>
            status.lagSeconds = 0)) = true := by decide +kernel
  obtain ⟨made, evaluated, shown⟩ := (Option.any_eq_true _ _).mp shown
  simp only [Bool.and_eq_true, decide_eq_true_eq] at shown
  obtain ⟨⟨⟨now, enabled⟩, above⟩, none_⟩ := shown
  obtain ⟨status, done, bound⟩ := covers made evaluated enabled
  have old := bound ⟨0, 80⟩ (by decide +kernel) above
  have none_ : status.lagSeconds = 0 := by simpa [done, Except.toOption] using none_
  rw [now, none_] at old
  exact absurd old (by decide)

/-- Where no frontier has reached position 80, its age is reported. -/
theorem admission_lag_covers_stalled
    : Watched.Always Watched.CoversLag (.start oneTarget)
      [.sample (lit "0/50") 0, .evaluate ⟨lit "0/50", none⟩ 400000] := by
  refine admission_lag_covers _ _ (by decide) ⟨fun made evaluated => ?_, ?_, trivial⟩
  · cases evaluated
  · intro made evaluated sample member _
    obtain ⟨same, _, _⟩ := AdmissionGate.after_evaluation evaluated
    refine ⟨?_, Or.inl ⟨sample, member, le_rfl, le_rfl⟩⟩
    rw [same]
    exact rfl

end PiFabric.Records
